import Monty.Fs.Updates

/-!
# Quotas

A mount may limit the memory its entries take and the bytes written to it. Both are running totals,
changed by differences and checked by foretelling the result, so both could drift. They do not:

* the memory in use is always the sum over the entries (`OverlayState.Accounted`), whatever is
  inserted, removed, appended to or moved;
* a check foretells just what committing the checked changes leads to
  (`projectedReplacements_eq`, `RenamePlan.memoryUsage_commit`);
* no request ends above a limit, and one that fails changes nothing (`execute_holds`).

The host is arbitrary here and may be another one for every request.
-/

namespace Monty.Fs

open Fallible WeighedMap RenamePlan Limit

namespace OverlayState

/-- The memory in use is the sum over the entries. -/
def Accounted (r : Nat) (s : OverlayState) : Prop :=
  s.memoryUsage = weight (entryMemoryUsage r) s.entries

variable {r : Nat} {s : OverlayState} {k : Key} {entry : OverlayEntry}

theorem accounted_new : new.Accounted r := rfl

section

variable (hs : s.Accounted r)

include hs

theorem projectedUsage_eq :
    s.projectedUsage r k entry = weight (entryMemoryUsage r) (s.entries.insert k entry) := by
  have hinsert := weight_insert (w := entryMemoryUsage r) s.entries k entry
  have hle := weightAt_le (w := entryMemoryUsage r) s.entries k
  rw [projectedUsage, usageAt, show s.memoryUsage = _ from hs]
  omega

theorem accounted_put : (s.put r k entry).Accounted r := projectedUsage_eq hs

theorem accounted_drop : (s.drop r k).Accounted r := by
  have herase := weight_erase (w := entryMemoryUsage r) s.entries k
  show s.memoryUsage - weightAt (entryMemoryUsage r) s.entries k = _
  rw [show s.memoryUsage = _ from hs]
  simp only [drop]
  omega

theorem accounted_putAll (changes : List (Key × OverlayEntry)) :
    (s.putAll r changes).Accounted r := by
  induction changes generalizing s with
  | nil => exact hs
  | cons p changes ih => exact ih (accounted_put hs)

theorem accounted_dropAll (keys : List Key) : (s.dropAll r keys).Accounted r := by
  induction keys generalizing s with
  | nil => exact hs
  | cons k keys ih => exact ih (accounted_drop hs)

theorem accounted_append {content data : Bytes} (hk : s.get k = some (.file content)) :
    Accounted r ⟨s.entries.insert k (.file (content ++ data)), s.memoryUsage + data.length⟩ := by
  have hinsert := weight_insert (w := entryMemoryUsage r) s.entries k (.file (content ++ data))
  have hat : weightAt (entryMemoryUsage r) s.entries k = entryMemoryUsage r k (.file content) := by
    rw [weightAt, show s.entries.lookup k = _ from hk]
    rfl
  simp only [Accounted, show s.memoryUsage = _ from hs]
  simp only [hat, entryMemoryUsage, OverlayEntry.variableSize, List.length_append] at hinsert
  omega

end

/-! ## Foretelling -/

/-- What is foretold for a file is what inserting it leads to. -/
theorem projectedFileUsage_eq (content : Bytes) :
    s.projectedFileUsage r k content.length = (s.put r k (.file content)).memoryUsage := rfl

/-- What is foretold for a list of replacements is what making them leads to. -/
theorem projectedReplacements_eq (hs : s.Accounted r) (changes : List (Key × OverlayEntry)) :
    s.projectedReplacements r changes = (s.putAll r changes).memoryUsage := by
  rw [show (s.putAll r changes).memoryUsage = _ from accounted_putAll hs changes, entries_putAll,
    projectedReplacements, show s.memoryUsage = _ from hs, project_eq]

end OverlayState

open OverlayState

variable {s : OverlayState}

theorem RenamePlan.memoryUsage_commit {r : Nat} (hs : s.Accounted r) (plan : RenamePlan) :
    ((s.dropAll r (plan.src :: plan.overlayMoves.map Prod.fst)).putAll r
      plan.replacements).memoryUsage = s.projectedReplacements r plan.replacements := by
  have hcommit := accounted_putAll
    (accounted_dropAll hs (plan.src :: plan.overlayMoves.map Prod.fst))
    plan.replacements
  rw [projectedReplacements_eq hs, show OverlayState.memoryUsage _ = _ from hcommit,
    show (s.putAll r plan.replacements).memoryUsage = _ from accounted_putAll hs _]
  exact weight_congr fun j => get_commit j

/-! ## Staying within the limits -/

theorem Limit.exceededBy_eq_false_iff {limit : Limit} {usage : Nat} :
    limit.exceededBy usage = false ↔ ∀ l, limit = some l → usage ≤ l := by
  cases limit with
  | none => simp [exceededBy]
  | some l => simp [exceededBy]

theorem Limit.check_eq_ok_iff {limit : Limit} {usage : Nat} {u : Unit} :
    limit.check usage = .ok u ↔ limit.exceededBy usage = false := by
  rw [check]
  cases limit.exceededBy usage <;> simp

/-- The mount's totals are right, and within its limits. -/
structure Mount.InQuota (ctx : Context) (m : Mount) : Prop where
  accounted : m.state.Accounted ctx.recordSize
  memory : ∀ limit, ctx.memoryUsageLimit = some limit → m.state.memoryUsage ≤ limit
  written : ∀ limit, ctx.writeBytesLimit = some limit → m.writeBytesUsed ≤ limit

/-- As `Mount.InQuota`, and nothing has been written yet since `m`. -/
structure Mount.InQuotaSince (ctx : Context) (m m' : Mount) : Prop extends m'.InQuota ctx where
  used : m'.writeBytesUsed = m.writeBytesUsed

section Requests

variable {ctx : Context} {m m' : Mount} {k : Key} {entry : OverlayEntry} {data : Bytes}

theorem Mount.inQuota_new : Mount.new.InQuota ctx :=
  ⟨accounted_new, fun _ _ => Nat.zero_le _, fun _ _ => Nat.zero_le _⟩

theorem Mount.InQuota.withState (hm : m.InQuota ctx) (hs : s.Accounted ctx.recordSize)
    (hlimit : ctx.memoryUsageLimit.exceededBy s.memoryUsage = false) :
    m.InQuotaSince ctx { m with state := s } :=
  { accounted := hs
    memory := Limit.exceededBy_eq_false_iff.mp hlimit
    written := hm.written
    used := rfl }

theorem insertEntry_holds (hm : m.InQuota ctx) :
    Holds (insertEntry ctx k entry) m fun _ m' => m.InQuotaSince ctx m' := by
  rw [insertEntry, onState, Holds, zoom, insert_apply]
  cases hlimit : ctx.memoryUsageLimit.exceededBy
    (m.state.projectedUsage ctx.recordSize k entry) with
  | true => rfl
  | false => exact hm.withState (accounted_put hm.accounted) hlimit

theorem commitWriteBytes_eq_ok {n : Nat} (hm : m.InQuotaSince ctx m')
    (hcheck : checkWriteLimit ctx m n = .ok ()) :
    ∃ m'', commitWriteBytes ctx n m' = .ok ⟨⟩ m'' ∧ m''.InQuota ctx := by
  rw [commitWriteBytes]
  cases hlimit : ctx.writeBytesLimit with
  | none => exact ⟨m', rfl, hm.toInQuota⟩
  | some limit =>
    refine ⟨{ m' with writeBytesUsed := m'.writeBytesUsed + n }, rfl, hm.accounted, hm.memory,
      fun l hl => ?_⟩
    rw [checkWriteLimit, hlimit] at hcheck
    have hle : m.writeBytesUsed + n ≤ limit := by
      by_contra hgt
      simp only [if_pos (not_le.mp hgt)] at hcheck
      cases hcheck
    cases hlimit.symm.trans hl
    exact hm.used ▸ hle

/-- A change within the limits, recorded as a checked write. -/
theorem Holds.commit {x : OverlayM Unit} {n : Nat} {v : Value}
    (hx : Holds x m fun _ m' => m.InQuotaSince ctx m') (hcheck : checkWriteLimit ctx m n = .ok ()) :
    Holds (x >>= fun _ => commitWriteBytes ctx n >>= fun _ => pure v) m fun _ m' =>
      m'.InQuota ctx := by
  refine Fallible.Holds.bind hx fun _ m' hm' => ?_
  obtain ⟨m'', hcommit, hm''⟩ := commitWriteBytes_eq_ok hm' hcheck
  exact ⟨v, m'', bind_of_ok hcommit, hm''⟩

/-- A change within the limits that is answered and not recorded. -/
theorem Holds.answer {α β : Type} {x : OverlayM α} {v : β}
    (hx : Holds x m fun _ m' => m'.InQuota ctx) :
    Holds (x >>= fun _ => pure v) m fun _ m' => m'.InQuota ctx :=
  Fallible.Holds.bind hx fun _ m' hm' => ⟨v, m', rfl, hm'⟩

variable (hm : m.InQuota ctx)
include hm

theorem insertEntry_inQuota : Holds (insertEntry ctx k entry) m fun _ m' => m'.InQuota ctx :=
  (insertEntry_holds hm).mono fun _ _ h => h.toInQuota

theorem writeFile_holds {count : Nat} :
    Holds (writeFile ctx k data count) m fun _ m' => m'.InQuota ctx := by
  refine .get_bind (.lift_bind fun _ hcheck => .lift_bind fun _ _ => .lift_bind fun _ _ =>
    .lift_bind fun _ _ => ?_)
  exact Holds.commit (insertEntry_holds hm) hcheck

variable {existingLen : Nat}

theorem materialize_holds :
    Holds (materialize ctx k data existingLen) m fun _ m' => m.InQuotaSince ctx m' :=
  .get_bind (.lift_bind fun _ _ => .lift_bind fun _ _ => .lift_bind fun _ _ =>
    .lift_bind fun _ _ => .lift_bind fun _ _ => insertEntry_holds hm)

/-- Appending in place succeeds within the limits, or changes nothing. -/
theorem onState_appendFile_cases (k : Key) (data : Bytes) :
    let x := onState (appendFile k data ctx.memoryUsageLimit)
    x m = .ok false m ∨ (∃ err, x m = .error err m) ∨
      ∃ m', x m = .ok true m' ∧ m.InQuotaSince ctx m' := by
  simp only [onState, zoom, appendFile_apply]
  cases hk : m.state.get k with
  | none => exact .inl rfl
  | some entry =>
    cases entry with
    | file content =>
      right
      cases hlimit : ctx.memoryUsageLimit.exceededBy (m.state.memoryUsage + data.length) with
      | true => exact .inl ⟨_, rfl⟩
      | false =>
        exact .inr ⟨_, rfl, hm.withState (accounted_append hm.accounted hk) hlimit⟩
    | realFileRef relative => exact .inl rfl
    | directory => exact .inl rfl
    | deleted => exact .inl rfl

theorem extendFile_holds :
    Holds (extendFile ctx k data existingLen) m fun _ m' => m.InQuotaSince ctx m' := by
  rw [extendFile]
  rcases onState_appendFile_cases hm k data with h | ⟨err, h⟩ | ⟨m', h, hm'⟩
  · rw [Holds, bind_of_ok h]
    exact materialize_holds hm
  · rw [Holds, bind_of_error h]
  · rw [Holds, bind_of_ok h]
    exact hm'

theorem appendBytes_holds : Holds (appendBytes ctx k data) m fun _ m' => m'.InQuota ctx := by
  refine .get_bind (.lift_bind fun _ _ => .lift_bind fun _ _ => .lift_bind fun _ _ =>
    .lift_bind fun _ hcheck => ?_)
  exact Holds.commit (extendFile_holds hm) hcheck

theorem createExclusive_holds {mode : FileMode} :
    Holds (createExclusive ctx k mode) m fun _ m' => m'.InQuota ctx :=
  .get_bind (.lift_bind fun _ _ => .lift_bind fun _ _ => .lift_bind fun _ _ =>
    Holds.answer (insertEntry_inQuota hm))

theorem ensureAppendTargetExists_holds :
    Holds (ensureAppendTargetExists ctx k) m fun _ m' => m'.InQuota ctx := by
  refine .get_bind ?_
  split
  · exact holds_pure hm
  · exact holds_pure hm
  · exact .throw
  · exact .lift_bind fun _ _ => insertEntry_inQuota hm
  refine .lift_bind fun _ _ => .lift_bind fun target _ => ?_
  cases target with
  | dir => exact .throw
  | symlink => exact .throw
  | file => exact holds_lift fun _ _ => hm
  | absent => exact .lift_bind fun _ _ => insertEntry_inQuota hm

theorem openEffect_holds (mode : FileMode) :
    Holds (openEffect ctx k mode) m fun _ m' => m'.InQuota ctx := by
  cases mode with
  | read binary | readUpdate binary => exact .get_bind (holds_lift fun _ _ => hm)
  | write binary | writeUpdate binary => exact Holds.answer (writeFile_holds hm)
  | append binary | appendUpdate binary => exact ensureAppendTargetExists_holds hm

theorem createDirectories_holds {dirs : List Key} :
    Holds (createDirectories ctx dirs) m fun _ m' => m'.InQuota ctx := by
  refine .get_bind (.lift_bind fun _ hcheck => .lift_bind fun _ hlimit => ?_)
  refine Holds.commit (.of_eq (forM_insertUnchecked_apply dirs m) ?_) hcheck
  rw [checkReplacements, check_eq_ok_iff, projectedReplacements_eq hm.accounted] at hlimit
  exact hm.withState (accounted_putAll hm.accounted _) hlimit

theorem mkdir_holds {parents existOk : Bool} :
    Holds (mkdir ctx k parents existOk) m fun _ m' => m'.InQuota ctx := by
  refine .get_bind (.lift_bind fun target _ => ?_)
  split
  · split
    · exact holds_pure hm
    · exact .throw
  · exact .throw
  · split
    · exact .lift_bind fun _ _ => createDirectories_holds hm
    · exact .lift_bind fun _ _ => createDirectories_holds hm

theorem rename_holds {src dst : Key} : Holds (rename ctx src dst) m fun _ m' => m'.InQuota ctx := by
  refine .get_bind (.lift_bind fun plan hplan => .lift_bind fun _ hlimit => ?_)
  have hcommit := onState_apply_ok (commit_apply (r := ctx.recordSize)
    (matches_of_planRename hplan))
  refine Holds.answer (.of_eq hcommit ?_)
  rw [checkReplacements, check_eq_ok_iff, ← plan.memoryUsage_commit hm.accounted] at hlimit
  exact (hm.withState (accounted_putAll (accounted_dropAll hm.accounted _) _) hlimit).toInQuota

theorem reading_holds {f : OverlayState → Except MountError Value} :
    Holds (reading f) m fun _ m' => m'.InQuota ctx :=
  .get_bind (holds_lift fun _ _ => hm)

/-- **A request stays within the limits, and changes nothing if it fails.** -/
theorem execute_holds (request : Request) :
    Holds (execute ctx request) m fun _ m' => m'.InQuota ctx := by
  cases request with
  | pathExists k | isFile k | isDir k | readBytes k | iterdir k _ =>
    rw [execute]
    exact reading_holds hm
  | writeText k data | writeBytes k data => exact writeFile_holds hm
  | appendText k data => exact Holds.answer (appendBytes_holds hm)
  | appendBytes k data => exact appendBytes_holds hm
  | mkdir k parents existOk => exact mkdir_holds hm
  | unlink k =>
    exact .get_bind (.lift_bind fun _ _ => Holds.answer (insertEntry_inQuota hm))
  | rmdir k =>
    exact .get_bind (.lift_bind fun _ _ => .lift_bind fun _ _ =>
      Holds.answer (insertEntry_inQuota hm))
  | rename src dst => exact rename_holds hm
  | createExclusive k mode => exact createExclusive_holds hm
  | openFile k mode => exact Holds.answer (openEffect_holds hm mode)

end Requests

/-! ## Runs -/

/-- A use of the overlay: a single change, or a request on whatever host there is at the time. -/
inductive Op
  | insert (k : Key) (entry : OverlayEntry)
  | remove (k : Key)
  | appendFile (k : Key) (data : Bytes)
  | request (dir : HostDir) (request : Request)

namespace Op

variable (ctx : Context)

/-- Carries out a use of the overlay. -/
def exec : Op → OverlayM Unit
  | .insert k entry => insertEntry ctx k entry
  | .remove k => do
    let _ ← onState (OverlayState.remove ctx.recordSize k)
  | .appendFile k data => do
    let _ ← onState (OverlayState.appendFile k data ctx.memoryUsageLimit)
  | .request dir req => do
    let _ ← execute { ctx with dir } req

/-- The mount after some uses of the overlay, each of which may have failed. -/
def run (ops : List Op) (m : Mount) : Mount := ops.foldl (fun m op => after (op.exec ctx) m) m

variable {ctx} {m : Mount}

theorem exec_holds (hm : m.InQuota ctx) (op : Op) :
    Holds (op.exec ctx) m fun _ m' => m'.InQuota ctx := by
  cases op with
  | insert k entry => exact insertEntry_inQuota hm
  | remove k =>
    refine Holds.answer (.of_eq (onState_apply_ok remove_apply) ?_)
    exact ⟨accounted_drop hm.accounted,
      fun limit hlimit => (Nat.sub_le _ _).trans (hm.memory limit hlimit), hm.written⟩
  | appendFile k data =>
    refine Holds.answer ?_
    rcases onState_appendFile_cases hm k data with h | ⟨err, h⟩ | ⟨m', h, hm'⟩
    · exact .of_eq h hm
    · rw [Holds, h]
    · exact .of_eq h hm'.toInQuota
  | request dir req =>
    have hdir : m.InQuota { ctx with dir } := ⟨hm.accounted, hm.memory, hm.written⟩
    exact Holds.answer ((execute_holds hdir req).mono fun _ _ h =>
      ⟨h.accounted, h.memory, h.written⟩)

theorem run_inQuota (ops : List Op) (hm : m.InQuota ctx) : (run ctx ops m).InQuota ctx := by
  induction ops generalizing m with
  | nil => exact hm
  | cons op ops ih => exact ih ((exec_holds hm op).after (fun _ _ h => h) hm)

theorem forM_put_apply {r : Nat} (changes : List (Key × OverlayEntry)) (s : OverlayState) :
    changes.forM (fun p => insertUnchecked r p.1 p.2) s = .ok ⟨⟩ (s.putAll r changes) := by
  induction changes generalizing s with
  | nil => rfl
  | cons p changes ih => exact (bind_of_ok insertUnchecked_apply).trans (ih _)

/-- **Quota accounting.**  However the overlay was used, on whatever hosts:

* the memory in use is the sum over the entries, and both totals are within their limits;
* what the checks foretell, for one file, for a list of replacements and for the plan of a rename,
  is the memory in use once the changes are committed;
* whatever fails next changes nothing. -/
theorem run_accounted (ctx : Context) (ops : List Op) :
    let r := ctx.recordSize
    let m := run ctx ops .new
    m.state.memoryUsage = weight (entryMemoryUsage r) m.state.entries ∧
    (∀ limit, ctx.memoryUsageLimit = some limit → m.state.memoryUsage ≤ limit) ∧
    (∀ limit, ctx.writeBytesLimit = some limit → m.writeBytesUsed ≤ limit) ∧
    (∀ k content, m.state.projectedFileUsage r k content.length =
      (after (insertUnchecked r k (.file content)) m.state).memoryUsage) ∧
    (∀ changes, m.state.projectedReplacements r changes =
      (after (changes.forM fun p => insertUnchecked r p.1 p.2) m.state).memoryUsage) ∧
    (∀ dir src dst plan, planRename { ctx with dir } m.state src dst = .ok plan →
      m.state.projectedReplacements r plan.replacements =
        (after (plan.commit r) m.state).memoryUsage) ∧
    ∀ (op : Op) err m', op.exec ctx m = .error err m' → m' = m := by
  intro r m
  have hm : m.InQuota ctx := run_inQuota ops Mount.inQuota_new
  refine ⟨hm.accounted, hm.memory, hm.written, fun k content => projectedFileUsage_eq content,
    fun changes => ?_, fun dir src dst plan hplan => ?_, fun op err m' h => ?_⟩
  · rw [projectedReplacements_eq hm.accounted, after, forM_put_apply]
  · rw [after, RenamePlan.commit_apply (RenamePlan.matches_of_planRename hplan)]
    exact (plan.memoryUsage_commit hm.accounted).symm
  · have hop := exec_holds hm op
    rwa [Holds, h] at hop

end Op

end Monty.Fs
