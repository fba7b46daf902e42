import Monty.Heap.Purge
import Monty.Heap.Runs

/-!
# The weak indexes over whole runs

An external function is known by its name, a class or an instance that crossed to the host by a uuid
that it is given then, the type of a host class by its id. Each of the three weak indexes maps such
a key to the entry that has it, and owns no reference to it.

`IndexStep` is what happens to a heap and its indexes, slots being freed and reused on the way, and
dumps being taken and loaded. Whatever happens, an index names an entry with the key it is asked for
(`Heap.Indexed`). If moreover no uuid is given twice, an index names every entry that has a key
(`Heap.FullyIndexed`), and then a key leads to one entry for as long as that entry lives
(`weakIndex_never_aliases`).
-/

namespace Monty

open Fallible StableHeap Option Heap

/-! ## The operations -/

/-- How looking after the indexes can panic. -/
inductive IndexPanic
  | heap (panic : Panic)
  /-- Only classes and instances have a boundary uuid. -/
  | noBoundary
  deriving DecidableEq, Repr

/-- The key under which an entry is indexed when a dump is loaded. -/
def HeapData.restoredKey : HeapData → Option WeakIndexKey
  | .extFunction name => some (.extFunction name)
  | .instanceObject uuid _ _ => uuid.map .boundary
  | .classObject uuid _ => uuid.map .boundary
  | .hostClassType typeId _ => some (.hostType typeId)
  | _ => none

def HeapData.boundaryUuid (generated : Nat) : HeapData → Option (Nat × HeapData)
  | .instanceObject uuid classId attrs =>
    some (uuid.getD generated, .instanceObject (some (uuid.getD generated)) classId attrs)
  | .classObject uuid attrs =>
    some (uuid.getD generated, .classObject (some (uuid.getD generated)) attrs)
  | _ => none

variable (h : Heap HeapData)

namespace Heap

/-- Indexes an entry under a key, in place of whatever was. -/
def insertWeakIndex {D : Type} (h : Heap D) (k : WeakIndexKey) (id : HeapId) : Heap D :=
  { h with weakIndex := fun k' => if k' = k then some id else h.weakIndex k' }

/-- The external function of a name: the live one, or a new one. -/
def getExtFunction (name : String) : Except Panic (HeapId × Heap HeapData) :=
  match h.weakIndex (.extFunction name) with
  | some id => do
    let h' ← h.incRef id
    return (id, h')
  | none =>
    let (id, h') := h.allocate (.extFunction name)
    return (id, h'.insertWeakIndex (.extFunction name) id)

/-- The boundary uuid of the class or instance at `id`. -/
def boundaryUuid (h : Heap HeapData) (generated : Nat) (id : HeapId) :
    Except IndexPanic (Nat × Heap HeapData) :=
  match h.get id with
  | .error panic => .error (.heap panic)
  | .ok e =>
    match e.data.boundaryUuid generated with
    | none => .error .noBoundary
    | some (uuid, data) =>
      .ok (uuid, (h.setEntry id { e with data }).insertWeakIndex (.boundary uuid) id)

/-- The class or instance that crossed to the host as `uuid`. -/
def resolveBoundaryUuid (uuid : Nat) : Option HeapId := h.weakIndex (.boundary uuid)

/-- The type of the host class `typeId`. -/
def resolveHostType (typeId : Nat) : Option HeapId := h.weakIndex (.hostType typeId)

/-- Allocates and indexes the type of a host class. -/
def allocateHostType (typeId : Nat) (attrs : AttrDict) : HeapId × Heap HeapData :=
  let (id, h') := h.allocate (.hostClassType typeId attrs)
  (id, h'.insertWeakIndex (.hostType typeId) id)

/-- The type of a host class: the one there is, or a new one. What a type that is there gets from
the host is an update of its payload. -/
def internHostClassType (typeId : Nat) (attrs : AttrDict) : Except Panic (HeapId × Heap HeapData) :=
  match h.resolveHostType typeId with
  | some id => do
    let h' ← h.incRef id
    return (id, h')
  | none => return h.allocateHostType typeId attrs

/-- Rebuilds the indexes from the entries, in the order of the slots. -/
def restoreEntries (entries : StableHeap (HeapEntry HeapData)) :
    List HeapId → (WeakIndexKey → Option HeapId) → Except String (WeakIndexKey → Option HeapId)
  | [], index => .ok index
  | id :: ids, index =>
    match entries.get? id with
    | none => restoreEntries entries ids index
    | some e =>
      if e.color = .gray ∨ e.color = .white then .error "snapshot contains a transient GC color"
      else
        match e.data.restoredKey with
        | none => restoreEntries entries ids index
        | some k => restoreEntries entries ids fun k' => if k' = k then some id else index k'

/-- The heap that is loaded from a dump of a heap. Readers are not dumped, nor are the indexes. -/
def restore : Except String (Heap HeapData) := do
  let entries := h.entries.reload fun e => { e with readers := 0 }
  let weakIndex ← restoreEntries entries (List.range entries.len) fun _ => none
  return { h with entries, weakIndex }

end Heap

/-- What happens to a heap and its indexes. Classes and instances are made without a uuid, and
external functions and the types of host classes by the operations that index them; only
`boundary_uuid` changes the key of an entry. `Fresh` is what is known of a uuid that is
generated. -/
inductive IndexStep (Fresh : Heap HeapData → Nat → Prop) : Heap HeapData → Heap HeapData → Prop
  | allocate {h : Heap HeapData} {data : HeapData} :
    weakIndexKey data = none → IndexStep Fresh h (h.allocate data).2
  | getExtFunction {h h' : Heap HeapData} {name : String} {id : HeapId} :
    h.getExtFunction name = .ok (id, h') → IndexStep Fresh h h'
  | internHostClassType {h h' : Heap HeapData} {typeId : Nat} {attrs : AttrDict} {id : HeapId} :
    h.internHostClassType typeId attrs = .ok (id, h') → IndexStep Fresh h h'
  | boundaryUuid {h h' : Heap HeapData} {generated uuid : Nat} {id : HeapId} :
    Fresh h generated → h.boundaryUuid generated id = .ok (uuid, h') → IndexStep Fresh h h'
  | update {h : Heap HeapData} {id : HeapId} {e e' : HeapEntry HeapData} :
    h.get? id = some e → weakIndexKey e'.data = weakIndexKey e.data →
    IndexStep Fresh h (h.setEntry id e')
  | incRef {h h' : Heap HeapData} {id : HeapId} : h.incRef id = .ok h' → IndexStep Fresh h h'
  | decRef {h h' : Heap HeapData} {id : HeapId} : h.decRef id = .ok h' → IndexStep Fresh h h'
  | collectCycles {h h' : Heap HeapData} {freed : Nat} :
    h.collectCycles = .ok (h', freed) → IndexStep Fresh h h'
  | restore {h h' : Heap HeapData} : h.restore = .ok h' → IndexStep Fresh h h'

def IndexRun (Fresh : Heap HeapData → Nat → Prop) : Heap HeapData → Prop :=
  Relation.ReflTransGen (IndexStep Fresh) (new (.tuple ⟨false, []⟩))

/-- No entry has the uuid. -/
def Heap.Unused (uuid : Nat) : Prop := ∀ x, h.key x ≠ some (.boundary uuid)

variable {data : HeapData}

variable {h h' : Heap HeapData} {id : HeapId} {k : WeakIndexKey}

namespace Heap

/-! ## What the operations do to keys and indexes -/

/-- An index names exactly the entries with a key. -/
def FullyIndexed (h : Heap HeapData) : Prop := ∀ k id, h.weakIndex k = some id ↔ h.key id = some k

/-- The keys are the same, and so are the indexes. -/
structure Keeps (h h' : Heap HeapData) : Prop where
  key : ∀ x, h'.key x = h.key x
  index : h'.weakIndex = h.weakIndex

/-- The entry at `id` has the key `k`, which it may have had before, and is indexed under it. -/
structure Adds (h : Heap HeapData) (id : HeapId) (k : WeakIndexKey)
    (h' : Heap HeapData) : Prop where
  old : h.key id = none ∨ h.key id = some k
  key : ∀ x, h'.key x = if x = id then some k else h.key x
  index : ∀ k', h'.weakIndex k' = if k' = k then some id else h.weakIndex k'

/-- The keys are the same, and the indexes are made anew from them. -/
structure Rebuilds (h h' : Heap HeapData) : Prop where
  key : ∀ x, h'.key x = h.key x
  sound : ∀ k x, h'.weakIndex k = some x → h.key x = some k
  complete : ∀ k x, h.key x = some k → h'.weakIndex k ≠ none

theorem Keeps.indexed (hk : Keeps h h') (hi : h.Indexed) : h'.Indexed := by
  intro k x hx
  rw [hk.index] at hx
  rw [hk.key]
  exact hi k x hx

theorem Keeps.fullyIndexed (hk : Keeps h h') (hf : h.FullyIndexed) : h'.FullyIndexed := by
  intro k x
  rw [hk.index, hk.key]
  exact hf k x

theorem Adds.key_mono (ha : Adds h id k h') {x : HeapId} {k' : WeakIndexKey}
    (hx : h.key x = some k') : h'.key x = some k' := by
  rw [ha.key]
  split_ifs with hxid
  · rcases ha.old with hold | hold
    · rw [hxid, hold] at hx
      cases hx
    · rw [hxid, hold] at hx
      exact hx
  · exact hx

theorem Adds.indexed (ha : Adds h id k h') (hi : h.Indexed) : h'.Indexed := by
  intro k' x hx
  rw [ha.index] at hx
  split_ifs at hx with hk
  · rw [ha.key, if_pos (some.inj hx).symm, hk]
  · exact ha.key_mono (hi k' x hx)

/-- If no other entry has the key, the index still names what has one. -/
theorem Adds.fullyIndexed (ha : Adds h id k h') (hf : h.FullyIndexed)
    (hother : ∀ x, x ≠ id → h.key x ≠ some k) : h'.FullyIndexed := by
  intro k' x
  rw [ha.index, ha.key]
  split_ifs with hk hx hx
  · simp [hk, hx]
  · subst hk
    exact ⟨fun heq => absurd (some.inj heq).symm hx, fun hkey => absurd hkey (hother x hx)⟩
  · rw [hf k' x, hx]
    rcases ha.old with hold | hold <;> rw [hold]
    simpa [eq_comm] using hk
  · exact hf k' x

theorem Rebuilds.indexed (hr : Rebuilds h h') : h'.Indexed := by
  intro k x hx
  rw [hr.key]
  exact hr.sound k x hx

theorem Rebuilds.fullyIndexed (hr : Rebuilds h h') (hf : h.FullyIndexed) : h'.FullyIndexed := by
  intro k x
  rw [hr.key]
  refine ⟨hr.sound k x, fun hx => ?_⟩
  -- only one entry has the key, so that is the one that is found
  cases hy : h'.weakIndex k with
  | none => exact absurd hy (hr.complete k x hx)
  | some y =>
    have hky := hr.sound k y hy
    rw [← hf] at hx hky
    rw [← hky, hx]

theorem Remains.fullyIndexed (hr : Remains h h') (hf : h.FullyIndexed) : h'.FullyIndexed := by
  intro k x
  rw [hr.index, hf]
  constructor
  · rintro ⟨hk, hx⟩
    rwa [hr.key x hx]
  · intro hk
    have hx := mem_live_of_key hk
    rw [hr.key x hx] at hk
    exact ⟨hk, hx⟩

/-! ### One lemma for each operation -/

theorem keeps_allocate (h : Heap HeapData) (hdata : weakIndexKey data = none) :
    Keeps h (h.allocate data).2 := by
  refine ⟨fun x => ?_, rfl⟩
  rw [key, key, get?, allocate, get?_allocate]
  split_ifs with hx
  · rw [hx, get?, get?_allocate_fst]
    exact hdata
  · rfl

theorem keeps_setEntry {e e' : HeapEntry HeapData} (he : h.get? id = some e)
    (hkey : weakIndexKey e'.data = weakIndexKey e.data) : Keeps h (h.setEntry id e') := by
  refine ⟨fun x => ?_, rfl⟩
  rw [key, get?_setEntry he]
  split_ifs with hx
  · rw [hx, key_of_get? he, ← hkey]
    rfl
  · rfl

theorem keeps_incRef (hrun : h.incRef id = .ok h') : Keeps h h' := by
  obtain ⟨e, hget, hrun⟩ := bind_eq_ok.mp hrun
  exact Except.ok.inj hrun ▸ keeps_setEntry (get?_of_get hget) rfl

theorem Indexed.incRef (hi : h.Indexed) (hk : h.weakIndex k = some id) :
    ∃ h', h.incRef id = .ok h' ∧ Keeps h h' := by
  obtain ⟨e, he⟩ := mem_live.mp (mem_live_of_key (hi k id hk))
  refine ⟨h.setEntry id { e with refcount := e.refcount + 1 }, ?_, keeps_setEntry he rfl⟩
  rw [Heap.incRef, get_of_get? he]
  rfl

theorem adds_allocate (h : Heap HeapData) (hdata : weakIndexKey data = some k) :
    Adds h (h.allocate data).1 k ((h.allocate data).2.insertWeakIndex k (h.allocate data).1) := by
  have hslot : h.get? (h.allocate data).1 = none := get?_allocate_fst ..
  refine ⟨.inl ?_, fun x => ?_, fun _ => rfl⟩
  · rw [key, hslot]
    rfl
  have hget : ((h.allocate data).2.insertWeakIndex k (h.allocate data).1).get? x =
      if x = (h.allocate data).1 then some ⟨1, 0, data, .black⟩ else h.get? x :=
    get?_allocate ..
  rw [key, hget]
  split_ifs with hx
  · exact hdata
  · rfl

/-- **`get_ext_function` returns an external function of that name**, and indexes it. -/
theorem getExtFunction_spec (hi : h.Indexed) (name : String) :
    ∃ id h', h.getExtFunction name = .ok (id, h') ∧ h'.weakIndex (.extFunction name) = some id ∧
      (h.weakIndex (.extFunction name) = some id ∧ Keeps h h' ∨
        h.weakIndex (.extFunction name) = none ∧ Adds h id (.extFunction name) h') := by
  rw [getExtFunction]
  cases hk : h.weakIndex (.extFunction name) with
  | some id =>
    obtain ⟨h', hrun, hkeeps⟩ := hi.incRef hk
    refine ⟨id, h', ?_, hkeeps.index ▸ hk, .inl ⟨rfl, hkeeps⟩⟩
    dsimp only
    rw [hrun]
    rfl
  | none => exact ⟨_, _, rfl, if_pos rfl, .inr ⟨rfl, adds_allocate h rfl⟩⟩

theorem internHostClassType_spec (hi : h.Indexed) (typeId : Nat) (attrs : AttrDict) :
    ∃ id h', h.internHostClassType typeId attrs = .ok (id, h') ∧
      h'.weakIndex (.hostType typeId) = some id ∧
      (h.weakIndex (.hostType typeId) = some id ∧ Keeps h h' ∨
        h.weakIndex (.hostType typeId) = none ∧ Adds h id (.hostType typeId) h') := by
  rw [internHostClassType, resolveHostType]
  cases hk : h.weakIndex (.hostType typeId) with
  | some id =>
    obtain ⟨h', hrun, hkeeps⟩ := hi.incRef hk
    refine ⟨id, h', ?_, hkeeps.index ▸ hk, .inl ⟨rfl, hkeeps⟩⟩
    dsimp only
    rw [hrun]
    rfl
  | none => exact ⟨_, _, rfl, if_pos rfl, .inr ⟨rfl, adds_allocate h rfl⟩⟩

/-- An entry that crosses has the uuid afterwards; it had it before, or had none and the uuid is the
generated one. -/
theorem boundaryUuid_key {generated uuid : Nat} {data' : HeapData}
    (h : data.boundaryUuid generated = some (uuid, data')) :
    weakIndexKey data' = some (.boundary uuid) ∧
      (weakIndexKey data = some (.boundary uuid) ∨ weakIndexKey data = none ∧
        uuid = generated) := by
  cases data with
  | instanceObject uuid classId attrs =>
    cases h
    cases uuid <;> exact ⟨rfl, by simp [weakIndexKey, HeapData.weakIndexKey]⟩
  | classObject uuid attrs =>
    cases h
    cases uuid <;> exact ⟨rfl, by simp [weakIndexKey, HeapData.weakIndexKey]⟩
  | _ => cases h

theorem boundaryUuid_spec {generated uuid : Nat}
    (hrun : h.boundaryUuid generated id = .ok (uuid, h')) :
    Adds h id (.boundary uuid) h' ∧ (h.key id = some (.boundary uuid) ∨ uuid = generated) := by
  rw [boundaryUuid] at hrun
  cases hget : h.get id with
  | error p => rw [hget] at hrun; cases hrun
  | ok e =>
    have he := get?_of_get hget
    rw [hget] at hrun
    dsimp only at hrun
    cases hdata : e.data.boundaryUuid generated with
    | none => rw [hdata] at hrun; cases hrun
    | some crossed =>
      rw [hdata] at hrun
      cases hrun
      obtain ⟨hnew, hold⟩ := boundaryUuid_key hdata
      rw [← key_of_get? he] at hold
      refine ⟨⟨?_, fun x => ?_, fun _ => rfl⟩, hold.imp_right And.right⟩
      · exact hold.symm.imp_left And.left
      have hget' : ((h.setEntry id { e with data := crossed.2 }).insertWeakIndex
          (.boundary crossed.1) id).get? x =
            if x = id then some { e with data := crossed.2 } else h.get? x := get?_setEntry he _ x
      rw [key, hget']
      split_ifs with hx
      · exact hnew
      · rfl

/-! ### Loading a dump -/

theorem restoredKey_eq (data : HeapData) : data.restoredKey = weakIndexKey data := by
  cases data <;> rfl

/-- An entry that is walked over is indexed under its key, if it has one. -/
theorem restoreEntries_cons {entries : StableHeap (HeapEntry HeapData)} {ids : List HeapId}
    {index index' : WeakIndexKey → Option HeapId}
    (hrun : restoreEntries entries (id :: ids) index = .ok index') :
    ∃ index1, restoreEntries entries ids index1 = .ok index' ∧ ∀ k, index1 k =
      if (entries.get? id).bind (fun e => weakIndexKey e.data) = some k then some id
        else index k := by
  rw [restoreEntries] at hrun
  cases he : entries.get? id with
  | none =>
    rw [he] at hrun
    exact ⟨_, hrun, fun _ => rfl⟩
  | some e =>
    rw [he] at hrun
    dsimp only at hrun
    split_ifs at hrun
    rw [restoredKey_eq] at hrun
    cases hkey : weakIndexKey e.data <;> rw [hkey] at hrun
    · exact ⟨_, hrun, by simp [hkey]⟩
    · exact ⟨_, hrun, by simp [hkey, eq_comm]⟩

/-- The indexes know what they knew, or an entry that was walked over; and they know every key that
was walked over. -/
theorem restoreEntries_spec (entries : StableHeap (HeapEntry HeapData)) (ids : List HeapId)
    {index index' : WeakIndexKey → Option HeapId}
    (hrun : restoreEntries entries ids index = .ok index') :
    (∀ k x, index' k = some x → index k = some x ∨
      (entries.get? x).bind (fun e => weakIndexKey e.data) = some k) ∧
    (∀ k, index k ≠ none → index' k ≠ none) ∧
    ∀ x ∈ ids, ∀ k, (entries.get? x).bind (fun e => weakIndexKey e.data) = some k →
      index' k ≠ none := by
  induction ids generalizing index with
  | nil =>
    cases hrun
    exact ⟨fun _ _ hx => .inl hx, fun _ hk => hk, nofun⟩
  | cons id ids ih =>
    obtain ⟨index1, hrun, hindex⟩ := restoreEntries_cons hrun
    obtain ⟨hsound, hmono, hcomplete⟩ := ih hrun
    refine ⟨fun k x hx => ?_, fun k hk => hmono k ?_, fun x hx k hk => ?_⟩
    · rcases hsound k x hx with hx | hx
      · rw [hindex] at hx
        split_ifs at hx with hk
        · exact .inr (some.inj hx ▸ hk)
        · exact .inl hx
      · exact .inr hx
    · rw [hindex]
      split_ifs
      · simp
      · exact hk
    · rcases List.mem_cons.mp hx with rfl | hx
      · exact hmono k (by simp [hindex, hk])
      · exact hcomplete x hx k hk

/-- Only the colours that a collection uses while it runs are refused. -/
theorem exists_restoreEntries {entries : StableHeap (HeapEntry HeapData)}
    (hcolor : ∀ x e, entries.get? x = some e → ¬ (e.color = .gray ∨ e.color = .white))
    (ids : List HeapId) (index : WeakIndexKey → Option HeapId) :
    ∃ index', restoreEntries entries ids index = .ok index' := by
  induction ids generalizing index with
  | nil => exact ⟨_, rfl⟩
  | cons id ids ih =>
    rw [restoreEntries]
    cases he : entries.get? id with
    | none => exact ih _
    | some e =>
      dsimp only
      rw [if_neg (hcolor id e he)]
      cases e.data.restoredKey <;> exact ih _

theorem Settled.exists_restore (hset : h.Settled) : ∃ h', h.restore = .ok h' ∧
    (∀ x, h'.get? x = (h.get? x).map fun e => { e with readers := 0 }) ∧
    h'.purpleCount = h.purpleCount := by
  have hget := get?_reload h.entries fun e => { e with readers := 0 }
  obtain ⟨index, hindex⟩ := exists_restoreEntries (fun x e he => by
    obtain ⟨e', he', rfl⟩ := map_eq_some_iff.mp ((hget x).symm.trans he)
    have hx := hset x (mem_live.mpr ⟨e', he'⟩)
    rwa [color_of_get? he', ← not_or] at hx) (List.range _) fun _ => none
  exact ⟨_, bind_eq_ok.mpr ⟨index, hindex, rfl⟩, hget, rfl⟩

theorem rebuilds_restore (hrun : h.restore = .ok h') : Rebuilds h h' := by
  obtain ⟨index, hindex, hrun⟩ := bind_eq_ok.mp hrun
  cases hrun
  have hkey : ∀ x, ((h.entries.reload fun e => { e with readers := 0 }).get? x).bind
      (fun e => weakIndexKey e.data) = h.key x := by
    intro x
    rw [get?_reload, key, get?]
    cases h.entries.get? x <;> rfl
  obtain ⟨hsound, -, hcomplete⟩ := restoreEntries_spec _ _ hindex
  refine ⟨hkey, fun k x hx => ?_, fun k x hx => ?_⟩
  · rcases hsound k x hx with hx | hx
    · cases hx
    · exact (hkey x).symm.trans hx
  · rw [← hkey] at hx
    obtain ⟨e, he, -⟩ := bind_eq_some_iff.mp hx
    exact hcomplete x (List.mem_range.mpr (lt_len_of_get? he)) k hx

end Heap

/-! ## Runs -/

open Heap

variable {Fresh : Heap HeapData → Nat → Prop}

theorem IndexStep.effect (hi : h.Indexed) (hstep : IndexStep Fresh h h') :
    Keeps h h' ∨ Remains h h' ∨ Rebuilds h h' ∨ ∃ id k, Adds h id k h' ∧
        (h.weakIndex k = none ∨ h.key id = some k ∨ ∃ uuid, Fresh h uuid ∧ k = .boundary uuid) := by
  cases hstep with
  | allocate hdata => exact .inl (keeps_allocate h hdata)
  | getExtFunction hrun =>
    obtain ⟨id, h1, hrun1, -, ⟨-, hkeeps⟩ | ⟨hnone, hadds⟩⟩ := getExtFunction_spec hi _
    all_goals obtain ⟨rfl, rfl⟩ := Prod.mk.inj (Except.ok.inj (hrun.symm.trans hrun1))
    · exact .inl hkeeps
    · exact .inr (.inr (.inr ⟨_, _, hadds, .inl hnone⟩))
  | internHostClassType hrun =>
    obtain ⟨id, h1, hrun1, -, ⟨-, hkeeps⟩ | ⟨hnone, hadds⟩⟩ := internHostClassType_spec hi _ _
    all_goals obtain ⟨rfl, rfl⟩ := Prod.mk.inj (Except.ok.inj (hrun.symm.trans hrun1))
    · exact .inl hkeeps
    · exact .inr (.inr (.inr ⟨_, _, hadds, .inl hnone⟩))
  | boundaryUuid hfresh hrun =>
    obtain ⟨hadds, hkey⟩ := boundaryUuid_spec hrun
    exact .inr (.inr (.inr ⟨_, _, hadds,
      .inr (hkey.imp_right fun huuid => ⟨_, hfresh, congrArg _ huuid⟩)⟩))
  | update he hkey => exact .inl (keeps_setEntry he hkey)
  | incRef hrun => exact .inl (keeps_incRef hrun)
  | decRef hrun => exact .inr (.inl (decRef_remains hi hrun))
  | collectCycles hrun => exact .inr (.inl (collectCycles_remains hi hrun))
  | restore hrun => exact .inr (.inr (.inl (rebuilds_restore hrun)))

theorem IndexStep.indexed (hi : h.Indexed) (hstep : IndexStep Fresh h h') : h'.Indexed := by
  obtain hkeeps | hremains | hrebuilds | ⟨id, k, hadds, -⟩ := hstep.effect hi
  · exact hkeeps.indexed hi
  · exact hremains.indexed hi
  · exact hrebuilds.indexed
  · exact hadds.indexed hi

theorem Heap.FullyIndexed.indexed (hf : h.FullyIndexed) : h.Indexed := fun k id => (hf k id).mp

theorem Heap.FullyIndexed.eq_of_key (hf : h.FullyIndexed) {x y : HeapId}
    (hx : h.key x = some k) (hy : h.key y = some k) : x = y := by
  rw [← hf] at hx hy
  exact mem_unique hx hy

theorem IndexStep.fullyIndexed (hf : h.FullyIndexed) (hstep : IndexStep Unused h h') :
    h'.FullyIndexed := by
  obtain hkeeps | hremains | hrebuilds | ⟨id, k, hadds, hk⟩ := hstep.effect hf.indexed
  · exact hkeeps.fullyIndexed hf
  · exact hremains.fullyIndexed hf
  · exact hrebuilds.fullyIndexed hf
  refine hadds.fullyIndexed hf fun x hx hkey => ?_
  rcases hk with hk | hk | ⟨uuid, hunused, rfl⟩
  · exact nomatch hk.symm.trans ((hf k x).mpr hkey)
  · exact hx (hf.eq_of_key hkey hk)
  · exact hunused x hkey

theorem IndexStep.key_eq (hi : h.Indexed) (hstep : IndexStep Fresh h h')
    (hk : h.key id = some k) (hid : id ∈ h'.live) : h'.key id = some k := by
  obtain hkeeps | hremains | hrebuilds | ⟨id, k, hadds, -⟩ := hstep.effect hi
  · rw [hkeeps.key, hk]
  · rw [hremains.key _ hid, hk]
  · rw [hrebuilds.key, hk]
  · exact hadds.key_mono hk

theorem fullyIndexed_new : (new (HeapData.tuple ⟨false, []⟩)).FullyIndexed := by
  intro k id
  have hkey : (new (HeapData.tuple ⟨false, []⟩)).key id = none := by
    rw [key, Heap.get?, Heap.new, get?_allocate]
    split_ifs
    · rfl
    · simp [StableHeap.get?, StableHeap.empty]
  rw [hkey]
  simp [new]

theorem IndexRun.indexed (hrun : IndexRun Fresh h) : h.Indexed := by
  induction hrun with
  | refl => exact fullyIndexed_new.indexed
  | tail _ hstep ih => exact hstep.indexed ih

theorem IndexRun.fullyIndexed (hrun : IndexRun Unused h) : h.FullyIndexed := by
  induction hrun with
  | refl => exact fullyIndexed_new
  | tail _ hstep ih => exact hstep.fullyIndexed ih

theorem weakIndex_of_survives (hf : h.FullyIndexed) (hk : h.weakIndex k = some id)
    (hrun : Relation.ReflTransGen (fun a b => IndexStep Unused a b ∧ id ∈ b.live) h h') :
    h'.FullyIndexed ∧ h'.weakIndex k = some id := by
  suffices h'.FullyIndexed ∧ h'.key id = some k from ⟨this.1, (this.1 k id).mpr this.2⟩
  induction hrun with
  | refl => exact ⟨hf, (hf k id).mp hk⟩
  | tail _ hstep ih =>
    exact ⟨hstep.1.fullyIndexed ih.1, hstep.1.key_eq ih.1.indexed ih.2 hstep.2⟩

theorem mem_live_of_weakIndex (hi : h.Indexed)
    (hk : h.weakIndex k = some id) : ∃ e, h.get? id = some e ∧ weakIndexKey e.data = some k :=
  bind_eq_some_iff.mp (hi k id hk)

theorem eq_extFunction_of_key {name : String}
    (hkey : weakIndexKey data = some (.extFunction name)) : data = .extFunction name := by
  cases data with
  | extFunction name' =>
    obtain rfl : name' = name := by simpa [weakIndexKey, HeapData.weakIndexKey] using hkey
    rfl
  | instanceObject uuid _ _ => cases uuid <;> cases hkey
  | classObject uuid _ => cases uuid <;> cases hkey
  | _ => cases hkey

/-- **The weak indexes never alias.** Whatever was done to a heap, its indexes name live entries
that have the key, and an external function that is asked for is one of that name. If no uuid was
given twice, a key that leads to an entry leads to it for as long as the entry is not freed, and so
does asking for the external function. -/
theorem weakIndex_never_aliases (h : Heap HeapData) : (∀ Fresh, IndexRun Fresh h →
      (∀ k id, h.weakIndex k = some id → ∃ e, h.get? id = some e ∧ weakIndexKey e.data = some k) ∧
      ∀ name, ∃ id h', h.getExtFunction name = .ok (id, h') ∧
        h'.weakIndex (.extFunction name) = some id ∧
        ∃ e, h'.get? id = some e ∧ e.data = .extFunction name) ∧
    (IndexRun Unused h → ∀ k id, h.weakIndex k = some id → ∀ h',
      Relation.ReflTransGen (fun a b => IndexStep Unused a b ∧ id ∈ b.live) h h' →
        h'.weakIndex k = some id ∧
        ∀ name, k = .extFunction name → ∃ h'', h'.getExtFunction name = .ok (id, h'')) := by
  refine ⟨fun Fresh hrun => ?_, fun hrun k id hk h' hkeep => ?_⟩
  · have hi := hrun.indexed
    refine ⟨fun k id hk => mem_live_of_weakIndex hi hk, fun name => ?_⟩
    obtain ⟨id, h', hget, hindex, -⟩ := getExtFunction_spec hi name
    have hstep : IndexStep Fresh h h' := .getExtFunction hget
    have hi' := hstep.indexed hi
    obtain ⟨e, he, hkey⟩ := mem_live_of_weakIndex hi' hindex
    exact ⟨id, h', hget, hindex, e, he, eq_extFunction_of_key hkey⟩
  obtain ⟨hf', hk'⟩ := weakIndex_of_survives hrun.fullyIndexed hk hkeep
  refine ⟨hk', ?_⟩
  rintro name rfl
  obtain ⟨id', h'', hget, -, ⟨hid, -⟩ | ⟨hnone, -⟩⟩ := getExtFunction_spec hf'.indexed name
  · exact ⟨h'', mem_unique hid hk' ▸ hget⟩
  · exact nomatch hnone.symm.trans hk'

/-- Here the slot of a function `f` was freed and is taken by a function `g`, and then the heap is
dumped and loaded: `f` is not known any more and `g` is still in its slot. -/
theorem weakIndex_never_aliases_reused : ∃ h h' : Heap HeapData,
    IndexRun Unused h ∧ h.weakIndex (.extFunction "f") = none ∧
    h.weakIndex (.extFunction "g") = some 1 ∧ (∃ e, h.get? 1 = some e ∧ e.data = .extFunction "g") ∧
    h.restore = .ok h' ∧ h'.weakIndex (.extFunction "g") = some 1 := by
  obtain ⟨h1, h2, h3, h', hf, hfree, hg, hnone, hsome, hload, hlive⟩ :
      ∃ h1 h2 h3 h' : Heap HeapData,
      (new (.tuple ⟨false, []⟩)).getExtFunction "f" = .ok (1, h1) ∧ h1.decRef 1 = .ok h2 ∧
      h2.getExtFunction "g" = .ok (1, h3) ∧ h3.weakIndex (.extFunction "f") = none ∧
      h3.weakIndex (.extFunction "g") = some 1 ∧ h3.restore = .ok h' ∧ 1 ∈ h'.live :=
    ⟨_, _, _, _, rfl, rfl, rfl, rfl, rfl, rfl, by decide⟩
  have r1 : IndexRun Unused h1 := .single (.getExtFunction hf)
  have r2 : IndexRun Unused h2 := r1.tail (.decRef hfree)
  have r3 : IndexRun Unused h3 := r2.tail (.getExtFunction hg)
  obtain ⟨hsound, hkept⟩ := weakIndex_never_aliases h3
  obtain ⟨e, he, hkey⟩ := (hsound _ r3).1 _ 1 hsome
  exact ⟨h3, h', r3, hnone, hsome, ⟨e, he, eq_extFunction_of_key hkey⟩, hload,
    (hkept r3 _ 1 hsome h' (.single ⟨.restore hload, hlive⟩)).1⟩

/-- **What crossed to the host is found again.** The uuid that a class or an instance is given leads
to it for as long as it is not freed, and it is given no other one. -/
theorem boundaryUuid_resolves {generated uuid : Nat} {h1 : Heap HeapData}
    (hrun : IndexRun Unused h) (hunused : h.Unused generated)
    (hok : h.boundaryUuid generated id = .ok (uuid, h1))
    (hkeep : Relation.ReflTransGen (fun a b => IndexStep Unused a b ∧ id ∈ b.live) h1 h') :
    h'.resolveBoundaryUuid uuid = some id ∧
      ∀ other, ∃ h'', h'.boundaryUuid other id = .ok (uuid, h'') := by
  have hf : h1.FullyIndexed := (IndexStep.boundaryUuid hunused hok).fullyIndexed hrun.fullyIndexed
  have hadds := (boundaryUuid_spec hok).1
  obtain ⟨hf', hk⟩ := weakIndex_of_survives hf (by rw [hadds.index, if_pos rfl]) hkeep
  obtain ⟨e, he, hkey⟩ := mem_live_of_weakIndex hf'.indexed hk
  refine ⟨hk, fun other => ?_⟩
  rw [Heap.boundaryUuid, Heap.get_of_get? he]
  rcases e with ⟨_, _, data, _⟩
  cases data with
  | instanceObject | classObject =>
    obtain ⟨_, rfl, ⟨⟩⟩ := map_eq_some_iff.mp hkey
    exact ⟨_, rfl⟩
  | _ => cases hkey

/-- A class is given the uuid 7. Then a function `f` is freed, its slot is taken by a function `g`,
and the heap is dumped and loaded: the uuid leads to the class, which is given the same one
again. -/
theorem boundaryUuid_resolves_reused : ∃ h h' : Heap HeapData,
    h.weakIndex (.extFunction "g") = some 2 ∧
    h.resolveBoundaryUuid 7 = some 1 ∧ h.boundaryUuid 9 1 = .ok (7, h') := by
  set h0 := ((new (.tuple ⟨false, []⟩)).allocate
    (HeapData.classObject none ⟨⟨none, false, [], nofun⟩, rfl⟩)).2
  obtain ⟨h1, h2, h3, h4, h5, hclass, hf, hfree, hg, hload, hindex, hlive⟩ :
      ∃ h1 h2 h3 h4 h5 : Heap HeapData, h0.boundaryUuid 7 1 = .ok (7, h1) ∧
      h1.getExtFunction "f" = .ok (2, h2) ∧ h2.decRef 2 = .ok h3 ∧
      h3.getExtFunction "g" = .ok (2, h4) ∧ h4.restore = .ok h5 ∧
      h5.weakIndex (.extFunction "g") = some 2 ∧
      (1 ∈ h2.live ∧ 1 ∈ h3.live ∧ 1 ∈ h4.live ∧ 1 ∈ h5.live) :=
    ⟨_, _, _, _, _, rfl, rfl, rfl, rfl, rfl, rfl, by decide⟩
  obtain ⟨hlive2, hlive3, hlive4, hlive5⟩ := hlive
  have hrun : IndexRun Unused h0 := .single (.allocate rfl)
  have hunused : h0.Unused 7 := fun x hx => nomatch (hrun.fullyIndexed _ x).mpr hx
  obtain ⟨hresolved, hsame⟩ := boundaryUuid_resolves hrun hunused hclass (.tail (.tail (.tail
    (.single ⟨.getExtFunction hf, hlive2⟩) ⟨.decRef hfree, hlive3⟩) ⟨.getExtFunction hg, hlive4⟩)
    ⟨.restore hload, hlive5⟩)
  obtain ⟨h', hagain⟩ := hsame 9
  exact ⟨h5, h', hindex, hresolved, hagain⟩

/-- **A dump can be taken at any time.**  It is loaded, with the entries there were, none of them
being read, and with the indexes there were if no uuid was given twice; and as the candidates are
loaded as well, a collection then misses no garbage. -/
theorem restore_misses_nothing {s : State HeapData} (hrun : Run KeepsParent s) :
    ∃ h', s.heap.restore = .ok h' ∧
      (∀ x, h'.get? x = (s.heap.get? x).map fun e => { e with readers := 0 }) ∧
      (IndexRun Unused s.heap → h'.weakIndex = s.heap.weakIndex) ∧
      ∃ h'' freed, h'.collectCycles = .ok (h'', freed) ∧
        ∀ x ∈ h''.live, Multigraph.ReachFrom h''.children s.External x := by
  have hg := hrun.good
  obtain ⟨h', hload, hget, hpc⟩ := hg.settled.exists_restore
  have hg' : Good ⟨h', s.external⟩ := hg.of_readers (fun x => by rw [hget, map_map]; rfl) hpc
  have hreaders : ∀ x ∈ h'.live, h'.readers x = 0 := fun x _ => by
    rw [readers, hget]
    cases s.heap.get? x <;> rfl
  obtain ⟨h'', W, hok, hc⟩ := collectCycles_spec hg'.accounted hg'.settled hg'.purpleCount
  refine ⟨h', hload, hget, fun hruns => ?_, h'', _, hok,
    fun x => hg'.reachFrom_of_collected hreaders hc⟩
  have hf := hruns.fullyIndexed
  have hkeys := rebuilds_restore hload
  funext k
  ext x
  rw [hkeys.fullyIndexed hf, hkeys.key, hf]

/-- There is a function `f`, and a list that was appended to itself and then forgotten. The heap is
dumped and loaded: the function is found, and a collection frees the list. -/
theorem restore_misses_nothing_selfLoop : ∃ (s : State HeapData) (h' h'' : Heap HeapData),
    2 ∈ s.heap.live ∧ s.heap.restore = .ok h' ∧ h'.weakIndex (.extFunction "f") = some 1 ∧
    h'.collectCycles = .ok (h'', 1) ∧ ∀ x ∈ h''.live, Multigraph.ReachFrom h''.children
      s.External x := by
  have r0 : Run KeepsParent (State.new (HeapData.tuple ⟨false, []⟩)) := .new _ rfl
  have r1 := r0.step (.allocate fun _ => Nat.zero_le _ :
    Step _ (.allocate (.extFunction "f")) _) trivial (cyclesTracked_of_forall (by decide))
  have r2 := r1.step (.reindex fun k => if k = .extFunction "f" then some 1 else none :
    Step _ (.reindex _) _) trivial (cyclesTracked_of_forall (by decide))
  have r3 := r2.step (.allocate fun _ => Nat.zero_le _ :
    Step _ (.allocate (.list ⟨false, []⟩)) _) trivial (cyclesTracked_of_forall (by decide))
  have r4 := r3.step (.incRef rfl : Step _ (.incRef 2) _) trivial
    (cyclesTracked_of_forall (by decide))
  have r5 := r4.step (.addChild rfl (.refl _) (by decide) :
    Step _ (.addChild 2 (.list ⟨true, [.ref 2]⟩) 2) _)
    (fun _ => .base (by unfold State.External; decide)) (cyclesTracked_of_forall (by decide))
  have r6 := r5.step (.decRef (by decide) rfl : Step _ (.decRef 2) _) trivial
    (cyclesTracked_of_forall (by decide))
  obtain ⟨s, h1, h3, h', h'', hrun, hf, hinc, he, hdec, hindex, hlive, hload, hfreed⟩ :
      ∃ (s : State HeapData) (h1 h3 h' h'' : Heap HeapData), Run KeepsParent s ∧
      (new (.tuple ⟨false, []⟩)).getExtFunction "f" = .ok (1, h1) ∧
      (h1.allocate (.list ⟨false, []⟩)).2.incRef 2 = .ok h3 ∧
      h3.get? 2 = some ⟨2, 0, .list ⟨false, []⟩, .black⟩ ∧
      (h3.setEntry 2 ⟨2, 0, .list ⟨true, [.ref 2]⟩, .black⟩).decRef 2 = .ok s.heap ∧
      s.heap.weakIndex (.extFunction "f") = some 1 ∧ 2 ∈ s.heap.live ∧
      s.heap.restore = .ok h' ∧ h'.collectCycles = .ok (h'', 1) :=
    ⟨_, _, _, _, _, r6, rfl, rfl, rfl, rfl, rfl, by decide, rfl, rfl⟩
  have hupdate : IndexStep Unused h3 (h3.setEntry 2 ⟨2, 0, .list ⟨true, [.ref 2]⟩, .black⟩) :=
    .update he rfl
  have hindexed : IndexRun Unused s.heap := .tail (.tail (.tail (.tail
    (.single (.getExtFunction hf)) (.allocate rfl)) (.incRef hinc)) hupdate) (.decRef hdec)
  obtain ⟨_, hload', -, hsame, _, _, hfreed', hreach⟩ := restore_misses_nothing hrun
  cases hload.symm.trans hload'
  cases hfreed.symm.trans hfreed'
  exact ⟨s, h', h'', hlive, hload, hsame hindexed ▸ hindex, hfreed, hreach⟩

end Monty
