import Monty.Table.Valid

/-!
# Probing a table that guest code can reach

`findIndex` looks a key up in a table that lives on the heap. Comparing two keys may run a user
`__eq__`, which may do anything to the table before it answers: insert, delete, compact it, clear
it, or put a key back. So the probe takes a snapshot of the candidates under the hash, compares them
one by one, and checks before and after each comparison that the candidate still names the same live
entry; if not, it starts over. When all candidates missed, comparisons may have added keys the
snapshot never saw, and `probeAfterCompare` goes on with those until a pass finds nothing new.

`Guest` is the world the probe runs in. What guest code may do is left open but for what the heap
guarantees: an object that is held is not freed, so its identity is not given to another one. The
probe is given fuel, since guest code can keep it going for ever.
-/

namespace Monty

open BucketTable
open TableEntry (isLive probeKey)

/-- The world a probe runs in: a state of the virtual machine, the table in it, and the key objects
that are compared. An object's identity may pass to another object once it is freed. -/
structure Guest (σ T E K I Err : Type) [BucketTable T] [TableEntry E K] where
  /-- Reads the table from the heap. -/
  table : σ → PyHashTable T E
  /-- Compares a stored key with the probed one while the given objects are held. Runs guest code,
  which may change the state and raise. -/
  pyEq : List K → K → K → σ → Except Err Bool × σ
  /-- Polls the limits. -/
  checkMemoryTime : σ → Except Err Unit
  /-- What `is` compares. -/
  ident : K → I
  /-- The comparison of a pair that needs no guest code, if it is one. -/
  probeNativeEq : K → K → Option Bool
  /-- Whether comparing the object never runs guest code. -/
  eqIsNative : K → Bool
  /-- The objects that are not freed. -/
  alive : σ → Set K
  valid : ∀ s, (table s).Valid
  /-- Under one hash a key object is stored once: a key is only pushed when it is absent. -/
  distinct : ∀ s i j e e', (table s).getLive i = some e → (table s).getLive j = some e' →
    TableEntry.hash e = TableEntry.hash e' → probeKey e = probeKey e' → i = j
  /-- Stored keys are not freed. -/
  alive_stored : ∀ s e, e ∈ (table s).live → probeKey e ∈ alive s
  /-- Objects that are held are not freed. -/
  alive_held : ∀ held a b s k, k ∈ held → k ∈ alive s → k ∈ alive (pyEq held a b s).2
  /-- Different objects have different identities while neither is freed. -/
  ident_inj : ∀ s a b, a ∈ alive s → b ∈ alive s → ident a = ident b → a = b
  /-- Native comparisons leave the table alone. -/
  table_pyEq : ∀ held a b s, eqIsNative a = true → eqIsNative b = true →
    table (pyEq held a b s).2 = table s

/-- A comparison of a stored key with the probed one. -/
structure Comparison (K : Type) where
  key : K
  /-- Through `pyEq`, which may run a user `__eq__`. -/
  user : Bool
  /-- `none` if it raised. -/
  answer : Option Bool

/-- The state of the machine, and the comparisons made so far. -/
structure Probing (σ K : Type) where
  state : σ
  /-- The comparisons since the last restart, in order. -/
  pass : List (Comparison K)
  /-- Those before each restart. -/
  earlier : List (List (Comparison K))

namespace Probing

variable {σ K : Type}

/-- A probe begins. -/
def start (s : σ) : Probing σ K := ⟨s, [], []⟩

/-- A call of `pyEq` that left the machine in state `s`. -/
def called (w : Probing σ K) (k : K) (answer : Option Bool) (s : σ) : Probing σ K :=
  { w with state := s, pass := w.pass ++ [⟨k, true, answer⟩] }

/-- The probe starts over. -/
def restarted (w : Probing σ K) : Probing σ K :=
  { w with pass := [], earlier := w.pass :: w.earlier }

end Probing

/-- Why a probe ended without an answer. -/
inductive Fault (Err : Type)
  | panic (p : TablePanic)
  | raised (err : Err)
  | outOfFuel

/-- How a pass over candidates ended. -/
inductive Verdict
  | found (slot : Nat)
  | missed
  /-- A candidate moved. -/
  | restart

/-- What the walk over the buckets collects. -/
structure Snapshot (K : Type) where
  /-- The slots and keys that are left to compare. -/
  candidates : List (Nat × K)
  allNative : Bool
  /-- The comparisons made on the way. -/
  compared : List (Comparison K)

/-- The keys that `probeAfterCompare` need not compare again. -/
structure Seen (K I : Type) where
  /-- Held, so that their identities stay theirs. -/
  compared : List K
  ids : List I
  /-- Whether this pass compared any. -/
  comparedAny : Bool

namespace Guest

variable {σ T E K I Err : Type} [BucketTable T] [TableEntry E K] [DecidableEq I]
  (g : Guest σ T E K I Err)

/-- Whether a candidate still names the same live entry. -/
def probeValid (index : Nat) (hash : UInt64) (key : K) (s : σ) : Bool :=
  ((g.table s).getLive index).any fun e =>
    TableEntry.hash e == hash && decide (g.ident (probeKey e) = g.ident key)

/-- Polls the limits and gives up on the pass. -/
def restart (w : Probing σ K) : Except (Fault Err) Verdict × Probing σ K :=
  match g.checkMemoryTime w.state with
  | .error err => (.error (.raised err), w)
  | .ok () => (.ok .restart, w)

/-- The test of the first walk: native pairs are compared at once, the others are left for later,
and so is everything behind one that was. -/
def snapshotTest (key : K) (hash : UInt64) (s : Snapshot K) (index : Nat) (e : E) :
    Snapshot K × Bool :=
  if TableEntry.hash e ≠ hash then (s, false)
  else
    match if s.candidates.isEmpty then g.probeNativeEq (probeKey e) key else none with
    | some eq => ({ s with compared := s.compared ++ [⟨probeKey e, false, some eq⟩] }, eq)
    | none =>
      ({ s with
          candidates := s.candidates ++ [(index, probeKey e)]
          allNative := s.allNative && g.eqIsNative (probeKey e) }, false)

/-- Compares the candidates of a snapshot in turn. If none of them can run guest code there is
nothing to check. -/
def compareCandidates (key : K) (hash : UInt64) (allNative : Bool) (held : List K) :
    List (Nat × K) → Probing σ K → Except (Fault Err) Verdict × Probing σ K
  | [], w => (.ok .missed, w)
  | (index, k) :: rest, w =>
    if !allNative && !g.probeValid index hash k w.state then g.restart w
    else
      match g.pyEq held k key w.state with
      | (.error err, s) => (.error (.raised err), w.called k none s)
      | (.ok eq, s) =>
        let w := w.called k (some eq) s
        if !allNative && !g.probeValid index hash k w.state then g.restart w
        else if eq then (.ok (.found index), w)
        else compareCandidates key hash allNative held rest w

/-- The live entries under a hash: their slots and keys. -/
def probeCandidates (hash : UInt64) (s : σ) : Except TablePanic (List (Nat × K)) := do
  let (candidates, _) ← (g.table s).probe hash (fun (candidates : List (Nat × K)) index e =>
    (if TableEntry.hash e == hash then candidates ++ [(index, probeKey e)]
      else candidates, false)) []
  return candidates

/-- One pass of `probeAfterCompare`: compares the candidates that were not compared before. -/
def comparePass (key : K) (hash : UInt64) (held : List K) :
    List (Nat × K) → Seen K I → Probing σ K → Except (Fault Err) (Verdict × Seen K I) × Probing σ K
  | [], seen, w => (.ok (.missed, seen), w)
  | (index, k) :: rest, seen, w =>
    if g.ident k ∈ seen.ids then comparePass key hash held rest seen w
    else
      let seen := { seen with ids := g.ident k :: seen.ids }
      if !g.probeValid index hash k w.state then
        ((g.restart w).1.map (·, seen), w)
      else
        let seen := { seen with compared := seen.compared ++ [k], comparedAny := true }
        match g.pyEq (seen.compared ++ held) k key w.state with
        | (.error err, s) => (.error (.raised err), w.called k none s)
        | (.ok eq, s) =>
          let w := w.called k (some eq) s
          if !g.probeValid index hash k w.state then
            ((g.restart w).1.map (·, seen), w)
          else if eq then (.ok (.found index, seen), w)
          else comparePass key hash held rest seen w

/-- Goes on after every candidate of a snapshot has missed, until a pass compares nothing. -/
def probeAfterCompare (key : K) (hash : UInt64) :
    Nat → Seen K I → Probing σ K → Except (Fault Err) Verdict × Probing σ K
  | 0, _, w => (.error .outOfFuel, w)
  | fuel + 1, seen, w =>
    match g.checkMemoryTime w.state with
    | .error err => (.error (.raised err), w)
    | .ok () =>
      match g.probeCandidates hash w.state with
      | .error p => (.error (.panic p), w)
      | .ok candidates =>
        match g.comparePass key hash (candidates.map Prod.snd) candidates
            { seen with comparedAny := false } w with
        | (.error fault, w) => (.error fault, w)
        | (.ok (.missed, seen), w) =>
          if seen.comparedAny then probeAfterCompare key hash fuel seen w else (.ok .missed, w)
        | (.ok (verdict, _), w) => (.ok verdict, w)

/-- **The slot of the entry equal to `key`, if there is one.** -/
def findIndex (key : K) (hash : UInt64) :
    Nat → Probing σ K → Except (Fault Err) (Option Nat) × Probing σ K
  | 0, w => (.error .outOfFuel, w)
  | fuel + 1, w =>
    match (g.table w.state).probe hash (g.snapshotTest key hash) ⟨[], g.eqIsNative key, []⟩ with
    | .error p => (.error (.panic p), w)
    | .ok (snapshot, found) =>
      let w := { w with pass := w.pass ++ snapshot.compared }
      match found with
      | some slot => (.ok (some slot), w)
      | none =>
        if snapshot.candidates.isEmpty then (.ok none, w)
        else
          let keys := snapshot.candidates.map Prod.snd
          match g.compareCandidates key hash snapshot.allNative keys snapshot.candidates w with
          | (.error fault, w) => (.error fault, w)
          | (.ok (.found slot), w) => (.ok (some slot), w)
          | (.ok .restart, w) => findIndex key hash fuel w.restarted
          | (.ok .missed, w) =>
            if snapshot.allNative then (.ok none, w)
            else
              match g.probeAfterCompare key hash fuel ⟨keys, keys.map g.ident, false⟩ w with
              | (.error fault, w) => (.error fault, w)
              | (.ok (.found slot), w) => (.ok (some slot), w)
              | (.ok .missed, w) => (.ok none, w)
              | (.ok .restart, w) => findIndex key hash fuel w.restarted

end Guest

end Monty
