import Monty.Heap.Release
import Monty.Lib.Keyed

/-!
# The string cache of `json.loads`

A parse takes the cache out of the VM, leaves an empty one in its place, and puts its own back when
it ends, with a value or an error. The hooks for numbers run during a parse, and may parse in turn.
So there are the cache of the VM and, on the native stack, the caches of the parses that are active.

What is cached is a counted reference, so a string that is found is the one that was asked for. But
the cache of the VM is overwritten when a parse ends: what a hook's own parse has cached is then in
no cache any more, and is never released. If that cache holds nothing, no reference is lost.
-/

namespace Monty.Json

open List Function StableHeap Heap Multigraph

/-! ## Strings on the heap -/

/-- The bytes of a string. -/
abbrev Text := List UInt8

/-- The payload of a string. Other objects of the heap do not matter here. -/
structure Str where
  text : Text

instance : HeapItem Str where
  forEachChildId _ := []
  pyDecRefIds _ := []
  isGcTracked _ := false
  weakIndexKey _ := none
  pyDecRefIds_perm _ := .nil

/-- Short strings are interned or inline. -/
inductive Value
  | inline (text : Text)
  | ref (id : HeapId)

/-- The string at `x`. -/
def text? (h : Heap Str) (x : HeapId) : Option Text := (h.get? x).map fun e => e.data.text

/-- The string that a value is. -/
def Value.text? (h : Heap Str) : Value → Option Text
  | .inline text => some text
  | .ref id => Json.text? h id

/-- Nothing is being read, and what is there is referred to. -/
structure Quiet (h : Heap Str) : Prop where
  readers : ∀ x, h.readers x = 0
  positive : ∀ x ∈ h.live, 0 < h.refcount x
  purpleCount : h.purpleCount = h.purple.card

/-- There are `n` references to `x` now, and what is left is as it was. -/
structure Recounted (h : Heap Str) (x : HeapId) (n : Nat) (h' : Heap Str) : Prop where
  quiet : Quiet h'
  refcount : ∀ y, h'.refcount y = if y = x then n else h.refcount y
  text : ∀ y, 0 < h'.refcount y → text? h' y = text? h y

variable {x y : HeapId} {s : Text} {n : Nat} {h h' : Heap Str}

theorem text?_eq_of_shape (hs : (h'.get? x).map HeapEntry.shape = (h.get? x).map HeapEntry.shape) :
    text? h' x = text? h x := by
  have htext := congrArg (Option.map fun p => p.1.text) hs
  rw [Option.map_map, Option.map_map] at htext
  exact htext

theorem Quiet.incRef (hq : Quiet h) (hx : 0 < h.refcount x) :
    ∃ h', h.incRef x = .ok h' ∧ Recounted h x (h.refcount x + 1) h' := by
  obtain ⟨e, he⟩ := Heap.mem_live.mp (mem_live_of_refcount_pos hx)
  have hrun : h.incRef x = .ok (h.setEntry x { e with refcount := e.refcount + 1 }) := by
    rw [Heap.incRef, Heap.get_of_get? he]
    rfl
  have hshape : SameShape h (h.setEntry x { e with refcount := e.refcount + 1 }) := .setEntry he rfl
  have hcount := refcount_setEntry he { e with refcount := e.refcount + 1 }
  refine ⟨_, hrun, ⟨fun y => ?_, fun y hy => ?_, ?_⟩, fun y => ?_, fun y _ => ?_⟩
  · exact (hshape.readers y).trans (hq.readers y)
  · rw [hcount]
    split_ifs
    · exact Nat.succ_pos _
    · exact hq.positive y (hshape.live ▸ hy)
  · rw [purple_setEntry he { e with refcount := e.refcount + 1 } rfl]
    exact hq.purpleCount
  · rw [hcount, refcount_of_get? he]
  · exact text?_eq_of_shape (hshape.shape y)

theorem Quiet.decRef (hq : Quiet h) (hx : 0 < h.refcount x) :
    ∃ h', h.decRef x = .ok h' ∧ Recounted h x (h.refcount x - 1) h' := by
  -- strings refer to nothing
  have hedges : ∀ S y, edgesInto h.children S y = 0 := fun S y => by
    rw [edgesInto_eq_zero_iff]
    intro v _
    rw [Heap.children]
    cases h.get? v <;> exact not_mem_nil
  have hle : ∀ y, [x].count y ≤ h.refcount y := fun y => by
    rw [count_singleton]
    split_ifs with hy
    · rwa [← beq_iff_eq.mp hy]
    · exact Nat.zero_le _
  rcases @decRef_spec Str _ h (fun y => h.refcount y - [x].count y) x
      (fun y => by rw [hedges, Nat.sub_add_cancel (hle y)]; rfl) hq.positive hq.purpleCount with
    ⟨-, y, -, hy⟩ | ⟨h', hrun, hr⟩
  · exact absurd (hq.readers y) hy
  refine ⟨h', hrun, ⟨fun y => ?_, hr.positive, hr.purpleCount⟩, fun y => ?_, fun y hy => ?_⟩
  · by_cases hy : y ∈ h'.live
    · exact (readers_eq_of_shape (hr.shape y hy)).trans (hq.readers y)
    · rw [Heap.readers, get?_eq_none hy]
      rfl
  · rw [hr.refcount, hedges, count_singleton]
    split_ifs <;> simp_all
  · exact text?_eq_of_shape (hr.shape y (mem_live_of_refcount_pos hy))

theorem Quiet.allocate (hq : Quiet h) (s : Text) : Quiet (h.allocate ⟨s⟩).2 ∧
    (∀ y, 0 < h.refcount y → (h.allocate ⟨s⟩).2.get? y = h.get? y) ∧
    text? (h.allocate ⟨s⟩).2 (h.allocate ⟨s⟩).1 = some s ∧
    (h.allocate ⟨s⟩).2.refcount (h.allocate ⟨s⟩).1 = 1 := by
  have hfree : h.get? (h.allocate ⟨s⟩).1 = none := StableHeap.get?_allocate_fst ..
  have hget : ∀ y, (h.allocate ⟨s⟩).2.get? y = if y = (h.allocate ⟨s⟩).1 then
      some ⟨1, 0, ⟨s⟩, .black⟩ else h.get? y := StableHeap.get?_allocate _ _
  have hnew := (hget _).trans (if_pos rfl)
  refine ⟨⟨fun y => ?_, fun y hy => ?_, ?_⟩, fun y hy => ?_, by rw [text?, hnew]; rfl,
    refcount_of_get? hnew⟩
  · rw [Heap.readers, hget]
    split_ifs
    · rfl
    · exact hq.readers y
  · rw [Heap.mem_live, hget] at hy
    rw [Heap.refcount, hget]
    split_ifs at hy ⊢
    · exact Nat.one_pos
    · exact hq.positive y (Heap.mem_live.mpr hy)
  · have hpurple : (h.allocate ⟨s⟩).2.purple = h.purple := by
      ext y
      rw [mem_purple_iff_get?, mem_purple_iff_get?, hget]
      split_ifs with hy
      · simp [hy, hfree]
      · rfl
    rw [hpurple]
    exact hq.purpleCount
  · rw [hget, if_neg]
    rintro rfl
    rw [Heap.refcount, hfree] at hy
    exact lt_irrefl 0 hy

/-- The heap, with the number of references that caches were given. -/
structure Store where
  heap : Heap Str
  stored : HeapId → Nat

/-- Caches have the references that they were given, so that there are no fewer. -/
structure Store.Counted (st : Store) : Prop where
  quiet : Quiet st.heap
  le : ∀ x, st.stored x ≤ st.heap.refcount x

/-- What a cache was given stays as it is. -/
structure Store.Moves (st st' : Store) : Prop where
  counted : st'.Counted
  stored : ∀ x, st.stored x ≤ st'.stored x
  text : ∀ x, 0 < st.stored x → text? st'.heap x = text? st.heap x

namespace Store

/-- A new string. -/
def allocate (st : Store) (s : Text) : HeapId × Store :=
  ((st.heap.allocate ⟨s⟩).1, { st with heap := (st.heap.allocate ⟨s⟩).2 })

/-- A clone that a cache keeps. -/
def keep (st : Store) (x : HeapId) : Except Panic Store := do
  let heap ← st.heap.incRef x
  pure ⟨heap, update st.stored x (st.stored x + 1)⟩

variable {st st' st'' : Store}

theorem Moves.refl (h : st.Counted) : st.Moves st := ⟨h, fun _ => le_rfl, fun _ _ => rfl⟩

theorem Moves.trans (h : st.Moves st') (h' : st'.Moves st'') : st.Moves st'' :=
  ⟨h'.counted, fun x => (h.stored x).trans (h'.stored x), fun x hx =>
    (h'.text x (hx.trans_le (h.stored x))).trans (h.text x hx)⟩

variable (hc : st.Counted)

include hc

theorem Counted.recount {k : Nat} {heap : Heap Str} (hr : Recounted st.heap x n heap)
    (hstored : st.stored x ≤ k) (hk : k ≤ n) : st.Moves ⟨heap, update st.stored x k⟩ := by
  have hcounted : Counted ⟨heap, update st.stored x k⟩ := by
    refine ⟨hr.quiet, fun y => ?_⟩
    rw [hr.refcount]
    refine (update_apply ..).trans_le ?_
    split_ifs
    · exact hk
    · exact hc.le y
  have hle : ∀ y, st.stored y ≤ update st.stored x k y := by
    intro y
    rw [update_apply]
    split_ifs with hy
    · rwa [hy]
    · exact le_rfl
  exact ⟨hcounted, hle, fun y hy => hr.text y ((hy.trans_le (hle y)).trans_le (hcounted.le y))⟩

/-- The references that are not the caches' come and go. -/
theorem Counted.moves {heap : Heap Str} (hr : Recounted st.heap x n heap) (hn : st.stored x ≤ n) :
    st.Moves { st with heap } := by
  have hm := hc.recount hr le_rfl hn
  rwa [update_eq_self] at hm

theorem Counted.allocate (s : Text) : st.Moves (st.allocate s).2 ∧
    text? (st.allocate s).2.heap (st.allocate s).1 = some s ∧
    (st.allocate s).2.heap.refcount (st.allocate s).1 = 1 := by
  obtain ⟨hq, hold, htext, hone⟩ := hc.quiet.allocate s
  refine ⟨⟨⟨hq, fun y => ?_⟩, fun _ => le_rfl, fun y hy => ?_⟩, htext, hone⟩
  · rcases Nat.eq_zero_or_pos (st.heap.refcount y) with hy | hy
    · exact ((hc.le y).trans_eq hy).trans (Nat.zero_le _)
    · exact (hc.le y).trans_eq (congrArg (Option.elim · 0 HeapEntry.refcount) (hold y hy).symm)
  · exact congrArg _ (hold y (hy.trans_le (hc.le y)))

end Store

/-- A string that no cache is asked for. -/
def allocateString (s : Text) (st : Store) : Value × Store :=
  if s.length ≤ 15 then (.inline s, st) else (.ref (st.allocate s).1, (st.allocate s).2)

/-! ## The cache -/

/-- The number of slots. -/
def capacity : Nat := 16384

/-- A string and where it is on the heap. -/
structure CacheEntry where
  hash : UInt64
  text : Text
  value : HeapId

/-- The slots that are occupied, and the hash function of the cache. -/
structure CacheInner where
  entries : Keyed Nat CacheEntry
  hashOne : Text → UInt64

/-- Allocated with the first string. -/
structure JsonStringCache where
  inner : Option CacheInner

/-- The references that the cache has. -/
def CacheInner.values (c : CacheInner) : List HeapId := c.entries.entries.map fun e => e.2.value

/-- The references that the cache has. -/
def JsonStringCache.values (c : JsonStringCache) : List HeapId := c.inner.elim [] CacheInner.values

/-- What probing comes to. -/
inductive Probe
  | hit (id : HeapId)
  | vacant (index : Nat)
  | occupied

namespace CacheInner

variable (c : CacheInner) (s : Text) (st : Store)

/-- Looks at five slots from the one of the hash on. -/
def probe : List Nat → Probe
  | [] => .occupied
  | offset :: offsets =>
    let index := ((c.hashOne s).toNat % capacity + offset) % capacity
    match c.entries.lookup index with
    | some e => if e.hash = c.hashOne s ∧ e.text = s then .hit e.value else probe offsets
    | none => .vacant index

/-- A new string, which the cache keeps. -/
def insertAt (index : Nat) : Except Panic (HeapId × CacheInner × Store) := do
  let (id, st) := st.allocate s
  let st ← st.keep id
  pure (id, { c with entries := c.entries.insert index ⟨c.hashOne s, s, id⟩ }, st)

/-- Strings of these lengths are on the heap. -/
def getOrAllocate : Except Panic (HeapId × CacheInner × Store) :=
  match c.probe s (range 5) with
  | .hit id => do
    let heap ← st.heap.incRef id
    pure (id, c, { st with heap })
  | .vacant index => c.insertAt s st index
  | .occupied => pure ((st.allocate s).1, c, (st.allocate s).2)

end CacheInner

namespace JsonStringCache

variable (c : JsonStringCache) (hashOne : Text → UInt64) (s : Text) (st : Store)

/-- `hashOne` is the function of a cache that is made now. -/
def getOrAllocate : Except Panic (Value × JsonStringCache × Store) :=
  if 16 ≤ s.length ∧ s.length ≤ 64 then do
    let (id, inner, st) ← (c.inner.getD ⟨∅, hashOne⟩).getOrAllocate s st
    pure (.ref id, ⟨some inner⟩, st)
  else pure ((allocateString s st).1, c, (allocateString s st).2)

/-- The references are released when the VM is dropped or saved. -/
def dropAll (h : Heap Str) : Except Panic (Heap Str) := c.values.foldlM decRef h

/-- A string of the text that is parsed. -/
def allocateCachedString : Except Panic (Value × JsonStringCache × Store) :=
  if s.length ≤ 15 then pure ((allocateString s st).1, c, (allocateString s st).2)
  else c.getOrAllocate hashOne s st

end JsonStringCache

/-- The strings of a cache are what they are filed under, and the cache has references to them. -/
def CacheInner.Good (c : CacheInner) (st : Store) : Prop :=
  ∀ i e, c.entries.lookup i = some e → text? st.heap e.value = some e.text ∧ 0 < st.stored e.value

/-- Its strings are right, if there are any. -/
def JsonStringCache.Good (c : JsonStringCache) (st : Store) : Prop :=
  ∀ inner, c.inner = some inner → inner.Good st

section Cache

variable {st st' : Store} {c : CacheInner}

theorem CacheInner.Good.mono (hgood : c.Good st) (hm : st.Moves st') : c.Good st' :=
  fun i e he => ⟨(hm.text _ (hgood i e he).2).trans (hgood i e he).1,
    (hgood i e he).2.trans_le (hm.stored _)⟩

theorem CacheInner.probe_spec (offsets : List Nat) :
    match c.probe s offsets with
    | .hit id => ∃ i e, c.entries.lookup i = some e ∧ e.value = id ∧ e.text = s
    | .vacant i => c.entries.lookup i = none
    | .occupied => True := by
  induction offsets with
  | nil => trivial
  | cons offset offsets ih =>
    rw [probe]
    cases he : c.entries.lookup (((c.hashOne s).toNat % capacity + offset) % capacity) with
    | none => exact he
    | some e =>
      dsimp only
      split_ifs with heq
      · exact ⟨_, e, he, rfl, heq.2⟩
      · exact ih

/-- A cache that a string was got from has the references that it was given meanwhile. -/
structure Got (values values' : List HeapId) (st st' : Store) : Prop where
  moves : st.Moves st'
  count : ∀ x, values'.count x + st.stored x = values.count x + st'.stored x

variable (hc : st.Counted)

include hc

/-- A reference that the cache keeps is a new one. -/
theorem Store.Counted.keep (hx : 0 < st.heap.refcount x) :
    ∃ st', st.keep x = .ok st' ∧ st.Moves st' ∧ st'.stored = update st.stored x (st.stored x + 1) ∧
      text? st'.heap x = text? st.heap x := by
  obtain ⟨heap, hrun, hr⟩ := hc.quiet.incRef hx
  refine ⟨⟨heap, _⟩, by rw [Store.keep, hrun]; rfl,
    hc.recount hr (Nat.le_succ _) (Nat.succ_le_succ (hc.le x)), rfl, hr.text x ?_⟩
  rw [hr.refcount, if_pos rfl]
  exact Nat.succ_pos _

theorem CacheInner.getOrAllocate_spec (hgood : c.Good st) (s : Text) :
    ∃ id c' st', c.getOrAllocate s st = .ok (id, c', st') ∧ Got c.values c'.values st st' ∧
      c'.Good st' ∧ text? st'.heap id = some s := by
  have hprobe := c.probe_spec (s := s) (range 5)
  obtain ⟨hm, htext, hone⟩ := hc.allocate s
  rw [getOrAllocate]
  cases hp : c.probe s (range 5) with
  | hit id =>
    rw [hp] at hprobe
    obtain ⟨i, e, he, rfl, rfl⟩ := hprobe
    obtain ⟨heap, hrun, hr⟩ := hc.quiet.incRef ((hgood i e he).2.trans_le (hc.le _))
    have hm := hc.moves hr ((hc.le _).trans (Nat.le_succ _))
    refine ⟨e.value, c, _, ?_, ⟨hm, fun _ => rfl⟩, hgood.mono hm, (hgood.mono hm i e he).1⟩
    simp only [hrun]
    rfl
  | occupied => exact ⟨_, _, _, rfl, ⟨hm, fun _ => rfl⟩, hgood.mono hm, htext⟩
  | vacant index =>
    rw [hp] at hprobe
    obtain ⟨st', hkeep, hk, hstored, htext'⟩ := hm.counted.keep (hone ▸ Nat.one_pos)
    rw [htext] at htext'
    have hrun : c.insertAt s st index = .ok ((st.allocate s).1,
        { c with entries := c.entries.insert index ⟨c.hashOne s, s, (st.allocate s).1⟩ }, st') := by
      simp only [insertAt, hkeep]
      rfl
    refine ⟨_, _, st', hrun, ⟨hm.trans hk, fun x => ?_⟩, fun i e he => ?_, htext'⟩
    · have hold : (st.allocate s).2.stored = st.stored := rfl
      rw [values, AList.entries_insert_of_notMem (AList.lookup_eq_none.mp hprobe),
        map_cons, ← values, count_cons, hstored, update_apply, hold]
      by_cases hx : x = (st.allocate s).1
      · simp only [hx, BEq.rfl, if_true]
        omega
      · simp [hx, Ne.symm hx]
    · rw [Keyed.lookup_insert_eq] at he
      split_ifs at he
      · cases he
        exact ⟨htext', by rw [hstored, update_self]; exact Nat.succ_pos _⟩
      · exact hgood.mono (hm.trans hk) i e he

theorem JsonStringCache.getOrAllocate_spec {c : JsonStringCache} (hgood : c.Good st)
    (hashOne : Text → UInt64) (s : Text) :
    ∃ v c' st', c.getOrAllocate hashOne s st = .ok (v, c', st') ∧ Got c.values c'.values st st' ∧
      c'.Good st' ∧ v.text? st'.heap = some s := by
  rw [getOrAllocate, allocateString]
  split_ifs with hlen hshort
  · have hinner : (c.inner.getD ⟨∅, hashOne⟩).Good st ∧
        (c.inner.getD ⟨∅, hashOne⟩).values = c.values := by
      rw [values]
      cases hinner : c.inner with
      | none => exact ⟨by simp [CacheInner.Good], rfl⟩
      | some inner => exact ⟨hgood inner hinner, rfl⟩
    obtain ⟨id, c', st', hrun, hgot, hgood', htext⟩ := CacheInner.getOrAllocate_spec hc hinner.1 s
    rw [hinner.2] at hgot
    refine ⟨.ref id, ⟨some c'⟩, st', ?_, hgot, by rintro _ ⟨⟩; exact hgood', htext⟩
    simp only [hrun]
    rfl
  · exact ⟨_, _, _, rfl, ⟨.refl hc, fun _ => rfl⟩, hgood, rfl⟩
  · obtain ⟨hm, htext, -⟩ := hc.allocate s
    exact ⟨_, _, _, rfl, ⟨hm, fun _ => rfl⟩, fun inner hinner => (hgood inner hinner).mono hm,
      htext⟩

omit hc in
theorem JsonStringCache.allocateCachedString_eq (c : JsonStringCache) (hashOne : Text → UInt64)
    (s : Text) : c.allocateCachedString hashOne s st = c.getOrAllocate hashOne s st := by
  rw [allocateCachedString, getOrAllocate]
  split_ifs <;> first | rfl | omega

end Cache

theorem Quiet.dropAll (hq : Quiet h) {c : JsonStringCache}
    (hle : ∀ x, c.values.count x ≤ h.refcount x) :
    ∃ h', c.dropAll h = .ok h' ∧ ∀ x, h'.refcount x + c.values.count x = h.refcount x := by
  rw [JsonStringCache.dropAll]
  revert hle
  generalize c.values = xs
  intro hle
  induction xs generalizing h with
  | nil => exact ⟨h, rfl, fun _ => rfl⟩
  | cons x xs ih =>
    have hx : 0 < h.refcount x := Nat.lt_of_lt_of_le (count_pos_iff.mpr mem_cons_self) (hle x)
    obtain ⟨h₁, hrun, hr⟩ := hq.decRef hx
    have hcons : ∀ y, h₁.refcount y + [x].count y = h.refcount y := by
      intro y
      rw [hr.refcount, count_singleton]
      by_cases hy : y = x
      · rw [hy, if_pos rfl, if_pos BEq.rfl, Nat.sub_add_cancel hx]
      · rw [if_neg hy, if_neg (by simpa using Ne.symm hy), Nat.add_zero]
    have hsplit : ∀ y, (x :: xs).count y = [x].count y + xs.count y :=
      fun y => @count_append _ _ y [x] xs
    obtain ⟨h₂, hdrop, hcount⟩ := ih hr.quiet fun y => by
      have := hle y
      have := hcons y
      have := hsplit y
      omega
    refine ⟨h₂, by rw [foldlM_cons, hrun]; exact hdrop, fun y => ?_⟩
    rw [hsplit, ← hcons, ← hcount]
    omega

/-! ## Parses within parses -/

/-- The caches of the parses that are active are on the native stack, the innermost one first. -/
structure Vm extends Store where
  cache : JsonStringCache
  active : List JsonStringCache

/-- What a program does, as far as caches and references go. A parse begins, possibly in a hook of
the innermost one, comes to a string, and ends, with a value or an error; any code allocates, and
clones and drops what is not the caches'. -/
inductive Op
  | begin
  | string (hashOne : Text → UInt64) (s : Text)
  | finish
  | allocate (s : Text)
  | clone (x : HeapId)
  | drop (x : HeapId)

namespace Vm

/-- Nothing has happened yet. -/
def new : Vm := ⟨⟨⟨.empty, 0, 0, fun _ => none⟩, fun _ => 0⟩, ⟨none⟩, []⟩

variable (vm : Vm)

/-- `incRef` or `decRef` of an object that is not only in caches. -/
def recount (f : Heap Str → HeapId → Except Panic (Heap Str)) (x : HeapId) : Option Vm :=
  if vm.stored x < vm.heap.refcount x then (f vm.heap x).toOption.map fun heap => { vm with heap }
  else none

/-- An operation, where it can happen. -/
def step : Op → Option Vm
  | .begin => some { vm with cache := ⟨none⟩, active := vm.cache :: vm.active }
  | .string hashOne s =>
    match vm.active with
    | [] => none
    | c :: active =>
      (c.allocateCachedString hashOne s vm.toStore).toOption.map fun (_, c, st) =>
        ⟨st, vm.cache, c :: active⟩
  | .finish =>
    match vm.active with
    | [] => none
    | c :: active => some { vm with cache := c, active }
  | .allocate s => some { vm with toStore := (vm.toStore.allocate s).2 }
  | .clone x => vm.recount incRef x
  | .drop x => vm.recount decRef x

/-- The references in the cache of the VM and in those of the parses that are active. -/
def cached : List HeapId := (vm.cache :: vm.active).flatMap JsonStringCache.values

/-- A parse that ends finds nothing in the cache that it overwrites. -/
def Clean (op : Op) : Prop := op = .finish → vm.cache.values = []

/-- The states of the runs whose operations are all of a kind. -/
inductive Reached (ok : Vm → Op → Prop) : Vm → Prop
  | new : Reached ok .new
  | step {vm vm' : Vm} (op : Op) (h : Reached ok vm) (hop : ok vm op)
    (hstep : vm.step op = some vm') : Reached ok vm'

/-- What holds in every state. -/
structure Inv : Prop where
  counted : vm.Counted
  good : ∀ c ∈ vm.cache :: vm.active, c.Good vm.toStore

/-- Every reference that a cache was given is in a cache. -/
def Owned : Prop := ∀ x, vm.stored x = vm.cached.count x

variable {vm} {vm' : Vm} {op : Op} {ok : Vm → Op → Prop}

theorem Inv.of_moves (h : vm.Inv) {st : Store} (hm : vm.Moves st) : Inv { vm with toStore := st } :=
  ⟨hm.counted, fun c hc inner hinner => (h.good c hc inner hinner).mono hm⟩

theorem Inv.recount (h : vm.Inv) {f : Heap Str → HeapId → Except Panic (Heap Str)}
    (hstep : vm.recount f x = some vm') (hn : vm.stored x < vm.heap.refcount x → vm.stored x ≤ n)
    (hf : 0 < vm.heap.refcount x → ∃ heap, f vm.heap x = .ok heap ∧ Recounted vm.heap x n heap) :
    vm'.Inv ∧ (vm.Owned → vm'.Owned) := by
  rw [Vm.recount] at hstep
  split_ifs at hstep with hx
  obtain ⟨heap, hrun, hr⟩ := hf (Nat.zero_lt_of_lt hx)
  rw [hrun] at hstep
  cases hstep
  exact ⟨h.of_moves (h.counted.moves hr (hn hx)), id⟩

theorem Inv.step (h : vm.Inv) (hstep : vm.step op = some vm') :
    vm'.Inv ∧ (vm.Clean op → vm.Owned → vm'.Owned) := by
  obtain ⟨st, cache, active⟩ := vm
  cases op with
  | begin =>
    cases hstep
    exact ⟨⟨h.counted, forall_mem_cons.mpr ⟨by rintro _ ⟨⟩, h.good⟩⟩, fun _ ho => ho⟩
  | string hashOne s =>
    cases active with
    | nil => cases hstep
    | cons c active =>
      obtain ⟨v, c', st', hrun, hgot, hgood, -⟩ :=
        JsonStringCache.getOrAllocate_spec h.counted (h.good c (by simp)) hashOne s
      rw [← JsonStringCache.allocateCachedString_eq] at hrun
      simp only [Vm.step, hrun] at hstep
      cases hstep
      have hothers := (h.of_moves hgot.moves).good
      rw [forall_mem_cons, forall_mem_cons] at hothers
      refine ⟨⟨hgot.moves.counted, ?_⟩, fun _ ho x => ?_⟩
      · rw [forall_mem_cons, forall_mem_cons]
        exact ⟨hothers.1, hgood, hothers.2.2⟩
      have hcount := hgot.count x
      have hstored := ho x
      dsimp only at hcount
      simp only [cached, flatMap_cons, count_append] at hstored ⊢
      omega
  | finish =>
    cases active with
    | nil => cases hstep
    | cons c active =>
      cases hstep
      refine ⟨⟨h.counted, fun c hc => h.good c (mem_cons_of_mem _ hc)⟩, fun hclean ho x => ?_⟩
      refine (ho x).trans ?_
      rw [cached, cached, flatMap_cons, hclean rfl, nil_append]
  | allocate s =>
    cases hstep
    exact ⟨h.of_moves (h.counted.allocate s).1, fun _ ho => ho⟩
  | clone x =>
    obtain ⟨hinv, howned⟩ := h.recount hstep (fun hx => Nat.le_succ_of_le hx.le)
      h.counted.quiet.incRef
    exact ⟨hinv, fun _ => howned⟩
  | drop x =>
    obtain ⟨hinv, howned⟩ := h.recount hstep Nat.le_sub_one_of_lt h.counted.quiet.decRef
    exact ⟨hinv, fun _ => howned⟩

theorem Reached.inv (h : vm.Reached ok) :
    vm.Inv ∧ ((∀ vm op, ok vm op → vm.Clean op) → vm.Owned) := by
  induction h with
  | new =>
    have hquiet : Quiet Vm.new.heap :=
      ⟨fun _ => rfl, fun x hx => absurd hx (Finset.notMem_empty x), rfl⟩
    exact ⟨⟨⟨hquiet, fun _ => le_rfl⟩, by simp [Vm.new, JsonStringCache.Good]⟩, fun _ _ => rfl⟩
  | step _ _ hop hstep ih =>
    obtain ⟨hinv, howned⟩ := ih.1.step hstep
    exact ⟨hinv, fun hok => howned (hok _ _ hop) (ih.2 hok)⟩

/-- **What is found in a cache is the string that is looked for.** If parses that end find nothing
in the cache that they overwrite, every reference stays in a cache, and is released once. -/
theorem cached_references_kept (h : vm.Reached ok) :
    (∀ c ∈ vm.cache :: vm.active, ∀ hashOne s, ∃ v c' st',
      c.getOrAllocate hashOne s vm.toStore = .ok (v, c', st') ∧ v.text? st'.heap = some s) ∧
    ((∀ vm op, ok vm op → vm.Clean op) → (∀ x, vm.stored x = vm.cached.count x) ∧
      (vm.active = [] → ∃ heap, vm.cache.dropAll vm.heap = .ok heap ∧
        ∀ x, heap.refcount x + vm.stored x = vm.heap.refcount x)) := by
  obtain ⟨hinv, howned⟩ := h.inv
  refine ⟨fun c hc hashOne s => ?_, fun hok => ⟨howned hok, fun hactive => ?_⟩⟩
  · obtain ⟨v, c', st', hrun, -, -, htext⟩ :=
      JsonStringCache.getOrAllocate_spec hinv.counted (hinv.good c hc) hashOne s
    exact ⟨v, c', st', hrun, htext⟩
  · have hstored : ∀ x, vm.stored x = vm.cache.values.count x := by
      intro x
      rw [howned hok, cached, hactive, flatMap_cons, flatMap_nil, append_nil]
    simp only [hstored]
    exact hinv.counted.quiet.dropAll fun x => hstored x ▸ hinv.counted.le x

/-- A string of 16 bytes. -/
abbrev sixteen : Text := replicate 16 48

/-- A hook parses a number, and the parse that has called it comes to one string twice. -/
theorem cached_references_kept_string : ∃ vm : Vm, vm.Reached Clean ∧ vm.stored 0 = 1 ∧
    vm.heap.refcount 0 = 3 ∧
    ∃ heap, vm.cache.dropAll vm.heap = .ok heap ∧ heap.refcount 0 + vm.stored 0 = 3 := by
  have hnested : Reached Clean _ :=
    .step .finish (.step .begin (.step .begin .new (by rintro ⟨⟩) rfl)
    (by rintro ⟨⟩) rfl) (fun _ => rfl) rfl
  have h : Reached Clean _ := .step .finish (.step (.string (fun _ => 0) sixteen) (.step
    (.string (fun _ => 0) sixteen) hnested (by rintro ⟨⟩) rfl) (by rintro ⟨⟩) rfl)
      (fun _ => rfl) rfl
  obtain ⟨heap, hdrop, hcount⟩ := ((cached_references_kept h).2 fun _ _ hop => hop).2 rfl
  exact ⟨_, h, rfl, rfl, heap, hdrop, hcount 0⟩

/-- A hook parses a string: when the parse that has called it ends nothing is cached, and the
reference is not released. -/
theorem hook_loses_references : ∃ vm : Vm, vm.Reached (fun _ _ => True) ∧ vm.active = [] ∧
    vm.stored 0 = 1 ∧ vm.cached = [] ∧ vm.cache.dropAll vm.heap = .ok vm.heap := by
  have h : Reached (fun _ _ => True) _ := .step .finish (.step .finish (.step
    (.string (fun _ => 0) sixteen) (.step .begin (.step .begin .new trivial rfl) trivial rfl)
      trivial
    rfl) trivial rfl) trivial rfl
  exact ⟨_, h, rfl, rfl, rfl, rfl⟩

end Vm

end Monty.Json
