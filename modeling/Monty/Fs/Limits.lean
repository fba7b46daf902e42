import Monty.Fs.Updates

/-!
# Limits only refuse

A mount with limits does what one without limits does, or refuses.

* What the requests read of the overlay and the host is the same, or the memory is said not to
  suffice (`planRename_spares`).
* A request that succeeds leaves the overlay as it would without limits (`execute_unlimited`); only
  the count of the bytes written is kept under a limit alone.
-/

namespace Monty.Fs

open Fallible OverlayState MountError MemoryBudget

/-- The error says that the memory does not suffice. -/
def MountError.NoMemory (err : MountError) : Prop := ∃ limit, err = .memoryUsageLimitExceeded limit

/-- The same mount without limits. -/
def Context.unlimited (ctx : Context) : Context :=
  { ctx with writeBytesLimit := none, memoryUsageLimit := none }

variable {ctx : Context} {s : OverlayState} {k : Key}

/-! ## Budgets -/

variable {α : Type}

section

variable {budget : MemoryBudget} {n : Nat} {err : MountError}

theorem noMemory_of_refused {c : Prop} [Decidable c] {limit : Limit} {a : α}
    (h : (if c then .error (.memoryUsageLimitExceeded limit) else .ok a) = Except.error err) :
    err.NoMemory := by
  split_ifs at h
  cases h
  exact ⟨_, rfl⟩

theorem MemoryBudget.noMemory_of_check (h : budget.check n = .error err) : err.NoMemory :=
  noMemory_of_refused h

theorem MemoryBudget.noMemory_of_shrink (h : budget.shrink n = .error err) : err.NoMemory :=
  noMemory_of_refused h

theorem noMemory_of_availableMemory (h : availableMemory ctx s = .error err) : err.NoMemory :=
  noMemory_of_refused h

/-- A check of a budget refuses, or goes unnoticed. -/
theorem Spares.check_bind {x y : Except MountError α} (h : Spares NoMemory x y) :
    Spares NoMemory (do budget.check n; x) y :=
  .bind_left (fun _ => noMemory_of_check) fun _ _ => h

end

/-! ## Reading -/

theorem readFileLimited_spares (dir : HostDir) (k path : Key) (budget : MemoryBudget) :
    Spares NoMemory (readFileLimited dir k path budget)
      (readFileLimited dir k path .unlimited) := by
  refine Spares.rfl.bind fun _ => Spares.rfl.bind fun file => Spares.check_bind ?_
  cases hbudget : budget.available with
  | none =>
    refine Spares.check_bind ?_
    exact .rfl
  | some available =>
    refine Spares.bind_left (fun _ => noMemory_of_check) fun _ hcheck => ?_
    -- one byte more than is available is read, so what passes the check is the whole file
    have hlength : file.content.length ≤ available := by
      rw [check, hbudget] at hcheck
      split_ifs at hcheck with hexceeded
      simp only [Limit.exceededBy, List.length_take, gt_iff_lt, decide_eq_true_eq] at hexceeded
      omega
    exact .inl (congrArg Except.ok (List.take_of_length_le (hlength.trans (Nat.le_succ _))))

theorem existingFileBytes_spares (s : OverlayState) (dir : HostDir) (k : Key)
    (budget : MemoryBudget) :
    Spares NoMemory (existingFileBytes s dir k budget) (existingFileBytes s dir k .unlimited) := by
  rw [existingFileBytes, existingFileBytes]
  cases s.get k with
  | none =>
    refine Spares.rfl.bind fun state => ?_
    cases state with
    | present => exact readFileLimited_spares dir k k budget
    | missing => exact .rfl
  | some entry =>
    cases entry with
    | file content => exact Spares.check_bind .rfl
    | realFileRef relative =>
      exact Spares.rfl.bind fun _ => readFileLimited_spares dir relative k budget
    | directory => exact .rfl
    | deleted => exact .rfl

/-! ## Planning a rename -/

section

variable {dir : HostDir} {handled : List Key} {path : Key} {budget : MemoryBudget}

theorem collectEntries_spares (k : Key) (listing : List (String × FileType)) (acc : Collected) :
    Spares NoMemory (collectEntries s dir handled path budget k listing acc)
      (collectEntries s dir handled path .unlimited k listing acc) := by
  induction listing generalizing acc with
  | nil => exact .rfl
  | cons p listing ih =>
    obtain ⟨name, fileType⟩ := p
    simp only [collectEntries]
    split
    · exact ih acc
    cases fileType with
    | symlink => exact .rfl
    | special => exact ih acc
    | dir => exact Spares.check_bind (ih _)
    | file =>
      cases OverlayEntry.fromRelative dir (k ++ [name]) with
      | none => exact ih acc
      | some entry => exact Spares.check_bind (ih _)

theorem collectDirs_spares (fuel : Nat) (acc : Collected) :
    Spares NoMemory (collectDirs s dir handled path budget fuel acc)
      (collectDirs s dir handled path .unlimited fuel acc) := by
  induction fuel generalizing acc with
  | zero => exact .rfl
  | succ fuel ih =>
    rw [collectDirs, collectDirs]
    cases acc.dirs with
    | nil => exact .rfl
    | cons k dirs =>
      dsimp only
      cases dir.readDir k with
      | error err => exact .rfl
      | ok listing => exact (collectEntries_spares k listing _).bind ih

end

/-- Of the errors of a capture a lack of memory is not passed over. -/
theorem realDescendants_spares (src : Key) (handled : List Key) (budget : MemoryBudget) :
    Spares NoMemory (realDescendants ctx s src handled budget)
      (realDescendants ctx.unlimited s src handled .unlimited) := by
  rw [realDescendants, realDescendants, Context.unlimited]
  cases resolveReal ctx.dir src with
  | error err => exact .rfl
  | ok _ =>
    dsimp only
    split
    · have hcollect : Spares NoMemory (collectRealDescendants s ctx.dir handled src budget)
          (collectRealDescendants s ctx.dir handled src .unlimited) := collectDirs_spares _ _
      rcases hcollect with h | ⟨err, ⟨limit, rfl⟩, h⟩
      · rw [h]
        exact .rfl
      · rw [h]
        exact .error ⟨limit, rfl⟩
    · exact .rfl

theorem descendantMoves_spares (src dst : Key) (srcIsDir : Bool) :
    Spares NoMemory (descendantMoves ctx s src dst srcIsDir)
      (descendantMoves ctx.unlimited s src dst srcIsDir) := by
  rw [descendantMoves, descendantMoves]
  split
  · refine .bind_left (fun _ => noMemory_of_availableMemory) fun budget _ => ?_
    refine .bind_left (fun _ => noMemory_of_shrink) fun remaining _ => ?_
    exact (realDescendants_spares src _ remaining).bind fun _ => .rfl
  · exact .rfl

/-- **The plan of a rename is the same under limits, or the memory does not suffice.** -/
theorem planRename_spares (src dst : Key) :
    Spares NoMemory (planRename ctx s src dst) (planRename ctx.unlimited s src dst) := by
  refine Spares.rfl.bind fun _ => Spares.rfl.bind fun _ => Spares.rfl.bind fun _ =>
    Spares.rfl.bind fun _ => Spares.rfl.bind fun _ => Spares.rfl.bind fun srcIsDir =>
    Spares.rfl.bind fun _ => Spares.rfl.bind fun _ => Spares.rfl.bind fun _ =>
    (descendantMoves_spares src dst srcIsDir).bind fun _ => .rfl

/-! ## Writing -/

/-- The overlay is the same. -/
def Alike (m m1 : Mount) : Prop := m.state = m1.state

section Writes

variable {m m1 : Mount}

theorem Alike.mk {w w1 : Nat} : Alike ⟨s, w⟩ ⟨s, w1⟩ := rfl

variable (h : Alike m m1)
include h

theorem Alike.get_bind {f g : Mount → EStateM MountError Mount α}
    (hfg : ∀ s w w1, Mirrors Alike (f ⟨s, w⟩) ⟨s, w⟩ (g ⟨s, w1⟩) ⟨s, w1⟩) :
    Mirrors Alike (get >>= f) m (get >>= g) m1 := by
  obtain ⟨s, w⟩ := m
  obtain ⟨_, w1⟩ := m1
  cases h
  exact .get_bind (hfg s w w1)

theorem onState_mirrors (x : EStateM MountError OverlayState α) :
    Mirrors Alike (onState x) m (onState x) m1 := by
  intro a m' hok
  rw [onState, zoom, h] at hok
  rw [onState, zoom]
  cases hx : x m1.state with
  | ok b s =>
    rw [hx] at hok
    cases hok
    exact ⟨_, rfl, rfl⟩
  | error err s =>
    rw [hx] at hok
    cases hok

theorem insertEntry_mirrors (entry : OverlayEntry) :
    Mirrors Alike (insertEntry ctx k entry) m (insertEntry ctx.unlimited k entry) m1 := by
  intro a m' hok
  rw [insertEntry, onState, zoom, insert_apply] at hok
  split_ifs at hok with hexceeded
  cases hok
  refine ⟨{ m1 with state := m1.state.put ctx.recordSize k entry }, ?_, ?_⟩
  · rfl
  · rw [Alike, h]

theorem commitWriteBytes_mirrors (n n1 : Nat) :
    Mirrors Alike (commitWriteBytes ctx n) m (commitWriteBytes ctx.unlimited n1) m1 := by
  intro a m' hok
  refine ⟨m1, rfl, ?_⟩
  rw [commitWriteBytes] at hok
  split at hok <;> cases hok <;> exact h

variable (data : Bytes)

theorem writeFile_mirrors (count : Nat) :
    Mirrors Alike (writeFile ctx k data count) m (writeFile ctx.unlimited k data count) m1 := by
  exact h.get_bind fun s w w1 => .lift_bind (fun _ _ => rfl) fun _ => .lift_bind
    (fun _ h => h) fun _ => .lift_bind (fun _ h => h) fun _ => .lift_bind (fun _ _ => rfl) fun _ =>
    (insertEntry_mirrors .mk _).bind fun _ _ _ h => (commitWriteBytes_mirrors h _ _).bind
    fun _ _ _ h => .pure h

theorem materialize_mirrors (existingLen : Nat) :
    Mirrors Alike (materialize ctx k data existingLen) m
      (materialize ctx.unlimited k data existingLen) m1 := by
  exact h.get_bind fun s w w1 => .lift_bind (fun _ _ => rfl) fun _ => .lift_bind_of fun budget _ =>
    ⟨.unlimited, rfl, .lift_bind (fun _ _ => rfl) fun _ => .lift_bind_of fun rest _ =>
      ⟨.unlimited, rfl, .lift_bind (fun _ h => (existingFileBytes_spares s ctx.dir k rest).eq_ok h)
        fun content => insertEntry_mirrors .mk _⟩⟩

theorem appendFile_mirrors : Mirrors Alike (onState (appendFile k data ctx.memoryUsageLimit)) m
      (onState (appendFile k data ctx.unlimited.memoryUsageLimit)) m1 := by
  obtain ⟨s, w⟩ := m
  obtain ⟨s1, w1⟩ := m1
  obtain rfl : s = s1 := h
  intro appended m' hok
  rw [onState, zoom, appendFile_apply] at hok ⊢
  cases hget : s.get k with
  | none =>
    rw [hget] at hok
    cases hok
    exact ⟨_, rfl, rfl⟩
  | some entry =>
    rw [hget] at hok
    cases entry with
    | file content =>
      split_ifs at hok
      cases hok
      exact ⟨_, rfl, rfl⟩
    | realFileRef relative | directory | deleted =>
      cases hok
      exact ⟨_, rfl, rfl⟩

theorem extendFile_mirrors (existingLen : Nat) : Mirrors Alike (extendFile ctx k data existingLen) m
      (extendFile ctx.unlimited k data existingLen) m1 :=
  (appendFile_mirrors h data).bind fun appended _ _ h => by
    cases appended with
    | true => exact .pure h
    | false => exact materialize_mirrors h data existingLen

theorem appendBytes_mirrors :
    Mirrors Alike (appendBytes ctx k data) m (appendBytes ctx.unlimited k data) m1 := by
  exact h.get_bind fun s w w1 => .lift_bind (fun _ h => h) fun _ => .lift_bind
    (fun _ h => h) fun _ =>
    .lift_bind (fun _ h => h) fun existingLen => .lift_bind (fun _ _ => rfl) fun _ =>
    (extendFile_mirrors .mk data existingLen).bind fun _ _ _ h =>
    (commitWriteBytes_mirrors h _ _).bind fun _ _ _ h => .pure h

theorem createExclusive_mirrors (mode : FileMode) :
    Mirrors Alike (createExclusive ctx k mode) m (createExclusive ctx.unlimited k mode) m1 := by
  exact h.get_bind fun s w w1 => .lift_bind (fun _ h => h) fun _ =>
    .lift_bind (fun _ h => h) fun _ =>
    .lift_bind (fun _ _ => rfl) fun _ => (insertEntry_mirrors .mk _).bind fun _ _ _ h =>
    .pure h

theorem ensureAppendTargetExists_mirrors : Mirrors Alike (ensureAppendTargetExists ctx k) m
      (ensureAppendTargetExists ctx.unlimited k) m1 := by
  refine h.get_bind fun s w w1 => ?_
  cases s.get k with
  | none =>
    refine .lift_bind (fun _ h => h) fun _ => .lift_bind (fun _ h => h) fun target => ?_
    cases target with
    | dir | symlink => exact .throw
    | file => exact mirrors_lift (fun _ h => h) .mk
    | absent => exact .lift_bind (fun _ h => h) fun _ => insertEntry_mirrors .mk _
  | some entry =>
    cases entry with
    | file content | realFileRef relative => exact .pure .mk
    | directory => exact .throw
    | deleted => exact .lift_bind (fun _ h => h) fun _ => insertEntry_mirrors .mk _

theorem openFile_mirrors (mode : FileMode) :
    Mirrors Alike (openFile ctx k mode) m (openFile ctx.unlimited k mode) m1 := by
  refine .bind ?_ fun _ _ _ h => .pure h
  cases mode with
  | read b | readUpdate b =>
    refine .get_bind (mirrors_lift (fun _ hok => ?_) h)
    rwa [h] at hok
  | write b | writeUpdate b => exact (writeFile_mirrors h _ _).bind fun _ _ _ h => .pure h
  | append b | appendUpdate b => exact ensureAppendTargetExists_mirrors h

theorem createDirectories_mirrors (dirs : List Key) :
    Mirrors Alike (createDirectories ctx dirs) m (createDirectories ctx.unlimited dirs) m1 := by
  refine .get_bind (.lift_bind (fun _ _ => rfl) fun _ => .lift_bind (fun _ _ => rfl) fun _ => ?_)
  refine .bind ?_ fun _ _ _ h => (commitWriteBytes_mirrors h _ _).bind fun _ _ _ h =>
    .pure h
  induction dirs generalizing m m1 with
  | nil => exact .pure h
  | cons k dirs ih => exact (onState_mirrors h _).bind fun _ _ _ h => ih h

theorem mkdir_mirrors (parents existOk : Bool) :
    Mirrors Alike (mkdir ctx k parents existOk) m (mkdir ctx.unlimited k parents existOk) m1 := by
  refine h.get_bind fun s w w1 => .lift_bind (fun _ h => h) fun target => ?_
  match target with
  | some true =>
    cases existOk with
    | true => exact .pure .mk
    | false => exact .throw
  | some false => exact .throw
  | none =>
    cases parents with
    | true => exact .lift_bind (fun _ h => h) fun dirs => createDirectories_mirrors .mk dirs
    | false => exact .lift_bind (fun _ h => h) fun _ => createDirectories_mirrors .mk [k]

theorem unlink_mirrors : Mirrors Alike (unlink ctx k) m (unlink ctx.unlimited k) m1 := by
  exact h.get_bind fun s w w1 => .lift_bind (fun _ h => h) fun _ => (insertEntry_mirrors .mk _).bind
    fun _ _ _ h => .pure h

theorem rmdir_mirrors : Mirrors Alike (rmdir ctx k) m (rmdir ctx.unlimited k) m1 := by
  exact h.get_bind fun s w w1 => .lift_bind (fun _ h => h) fun _ => .lift_bind
    (fun _ h => h) fun _ => (insertEntry_mirrors .mk _).bind fun _ _ _ h => .pure h

theorem rename_mirrors (src dst : Key) :
    Mirrors Alike (rename ctx src dst) m (rename ctx.unlimited src dst) m1 := by
  exact h.get_bind fun s w w1 => .lift_bind (fun _ h => (planRename_spares src dst).eq_ok h)
    fun plan =>
    .lift_bind (fun _ _ => rfl) fun _ => (onState_mirrors .mk _).bind fun _ _ _ h => .pure h

end Writes

theorem reading_eq_ok {f : OverlayState → Except MountError Value} {m m' : Mount} {v : Value}
    (h : reading f m = .ok v m') : m' = m := by
  rw [reading, get_bind_apply] at h
  cases hf : f m.state with
  | ok a =>
    rw [hf] at h
    cases h
    rfl
  | error err =>
    rw [hf] at h
    exact nomatch h

/-- **Limits only refuse.** A request that succeeds leaves the overlay as it was or as the request
does without limits. -/
theorem execute_unlimited {request : Request} {m m' m1 : Mount} {v : Value} (hm : Alike m m1)
    (h : execute ctx request m = .ok v m') :
    Alike m' m1 ∨ ∃ m1', execute ctx.unlimited request m1 = .ok v m1' ∧ Alike m' m1' := by
  cases request with
  | pathExists k | isFile k | isDir k | readBytes k | iterdir k _ =>
    rw [execute] at h
    rw [reading_eq_ok h]
    exact .inl hm
  | writeText k data | writeBytes k data => exact .inr (writeFile_mirrors hm _ _ v m' h)
  | appendText k data =>
    exact .inr ((appendBytes_mirrors hm _).bind (fun _ _ _ h => .pure h) v m' h)
  | appendBytes k data => exact .inr (appendBytes_mirrors hm _ v m' h)
  | mkdir k parents existOk => exact .inr (mkdir_mirrors hm parents existOk v m' h)
  | unlink k => exact .inr (unlink_mirrors hm v m' h)
  | rmdir k => exact .inr (rmdir_mirrors hm v m' h)
  | rename src dst => exact .inr (rename_mirrors hm src dst v m' h)
  | createExclusive k mode => exact .inr (createExclusive_mirrors hm mode v m' h)
  | openFile k mode => exact .inr (openFile_mirrors hm mode v m' h)

end Monty.Fs
