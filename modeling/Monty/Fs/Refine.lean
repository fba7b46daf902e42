import Monty.Lib.Simulation
import Monty.Fs.Moves

/-!
# An overlay mount is a plain tree

A mount without limits, on a host of files and directories that nobody else changes, answers every
request as a plain copy of the host tree would, shows that tree, and leaves the host alone
(`transcript_serve`).

There is one exception, `Buried`: where the overlay has a directory in the place of a regular file
of the host, nothing can be created in it. The check of the target asks the host, which answers
that the path leads through a file, and that is taken for an error of the request instead of an
absent target (`transcript_serve_buried`). Moving something there works, since `rename` does not
make this check.
-/

namespace Monty.Fs

open FileTree FileTree.Tree Fallible Simulation HostTree

/-- The path that a request may create something at. -/
def Request.creates : Request → Option Key
  | .writeText k _ | .writeBytes k _ | .appendText k _ | .appendBytes k _ | .mkdir k _ _
  | .createExclusive k _ => some k
  | .openFile k (.write _) | .openFile k (.writeUpdate _) | .openFile k (.append _)
  | .openFile k (.appendUpdate _) => some k
  | _ => none

/-- The paths of a rename are different. -/
def Request.Distinct : Request → Prop
  | .rename src dst => src ≠ dst
  | _ => True

/-- The request creates nothing in the place of a regular file of the host, unless the tree that is
shown refuses it as well. -/
def Clear (t : HostTree) (s : OverlayState) (request : Request) : Prop :=
  ∀ k, request.creates = some k → Buried t s k → ∀ T, Shows t s T → request.posix T = none

section

variable {t : HostTree} {T : Tree String Bytes} {m : Mount} {r : Nat} {k : Key} {request : Request}

/-! ## In the place of a regular file -/

section

variable (h : Buried t m.state k)

include h

theorem Buried.belowFile : t.belowFile k = true := by
  obtain ⟨-, j, c, hj, hne, hc, -⟩ := h
  exact belowFile_iff.mpr ⟨j, c, hj, hne, hc⟩

theorem Buried.rejectDirectoryTarget :
    rejectDirectoryTarget m.state t.dir k = .error (.io (osError .notADirectory) k) := by
  rw [Fs.rejectDirectoryTarget, h.1]
  simp only [resolveReal_dir, classifyTarget_belowFile h.belowFile, bind, Except.bind]

theorem Buried.writeFile (data : Bytes) (count : Nat) :
    ∃ err, writeFile (plain t r) k data count m = .error err m := by
  rw [Fs.writeFile, get_bind_apply]
  exact lift_bind_error fun _ => lift_bind_error fun _ =>
    ⟨_, lift_bind_of_error h.rejectDirectoryTarget⟩

theorem Buried.appendBytes (data : Bytes) :
    ∃ err, appendBytes (plain t r) k data m = .error err m := by
  exact lift_bind_error fun _ => ⟨_, lift_bind_of_error h.rejectDirectoryTarget⟩

theorem Buried.createExclusive (mode : FileMode) :
    ∃ err, createExclusive (plain t r) k mode m = .error err m := by
  have hreject : rejectOccupied (plain t r) m.state k =
      .error (.io (osError .notADirectory) k) := by
    rw [rejectOccupied, occupied, h.1]
    simp only [classifyTarget_belowFile h.belowFile, bind, Except.bind]
  exact lift_bind_error fun _ => ⟨_, lift_bind_of_error hreject⟩

theorem Buried.ensureAppendTargetExists :
    ∃ err, ensureAppendTargetExists (plain t r) k m = .error err m := by
  rw [Fs.ensureAppendTargetExists, get_bind_apply, h.1]
  exact lift_bind_error fun _ =>
    ⟨_, lift_bind_of_error (classifyTarget_belowFile h.belowFile)⟩

theorem Buried.mkdir (parents existOk : Bool) :
    ∃ err, mkdir (plain t r) k parents existOk m = .error err m := by
  have hreject : mkdirTarget (plain t r) m.state k = .error (.io (osError .notADirectory) k) := by
    rw [mkdirTarget, h.1]
    simp only [resolveReal_dir, classifyTarget_belowFile h.belowFile, bind, Except.bind]
  exact ⟨_, lift_bind_of_error hreject⟩

theorem Buried.openFile {mode : FileMode} (hmode : (Request.openFile k mode).creates = some k) :
    ∃ err, openFile (plain t r) k mode m = .error err m := by
  have heffect : ∃ err, openEffect (plain t r) k mode m = .error err m := by
    cases mode with
    | read b | readUpdate b => exact nomatch hmode
    | write b | writeUpdate b =>
      obtain ⟨err, herr⟩ := h.writeFile "".toUTF8.data.toList "".length
      exact ⟨err, bind_of_error herr⟩
    | append b | appendUpdate b => exact h.ensureAppendTargetExists
  obtain ⟨err, herr⟩ := heffect
  exact ⟨err, bind_of_error herr⟩

end

/-- Nothing is created in the place of a regular file of the host. -/
theorem execute_buried (hcreates : request.creates = some k)
    (h : Buried t m.state k) : ∃ err, execute (plain t r) request m = .error err m := by
  cases request with
  | writeText j data | writeBytes j data =>
    cases hcreates
    exact h.writeFile _ _
  | appendText j data =>
    cases hcreates
    obtain ⟨err, herr⟩ := h.appendBytes data.toUTF8.data.toList
    exact ⟨err, bind_of_error herr⟩
  | appendBytes j data =>
    cases hcreates
    exact h.appendBytes data
  | mkdir j parents existOk =>
    cases hcreates
    exact h.mkdir parents existOk
  | createExclusive j mode =>
    cases hcreates
    exact h.createExclusive mode
  | openFile j mode =>
    obtain rfl : j = k := by
      cases mode with
      | read b | readUpdate b => exact nomatch hcreates
      | write b | writeUpdate b | append b | appendUpdate b => exact Option.some.inj hcreates
    exact h.openFile hcreates
  | pathExists j | isFile j | isDir j | readBytes j | unlink j | rmdir j | iterdir j _
  | rename src dst => exact nomatch hcreates

/-! ## Elsewhere -/

open Classical in
/-- **A request agrees with the plain tree.** -/
theorem execute_agrees (h : Shows t m.state T) (request : Request) (hdistinct : request.Distinct)
    (hclear : ∀ k, request.creates = some k → ¬ Buried t m.state k) :
    Agrees t T (execute (plain t r) request m) (request.posix T) := by
  cases request with
  | pathExists k =>
    rw [execute]
    exact agrees_reading h ⟨_, pathExists_plain h, rfl⟩
  | isFile k =>
    rw [execute]
    exact agrees_reading h ⟨_, isFile_plain h, rfl⟩
  | isDir k =>
    rw [execute]
    exact agrees_reading h ⟨_, isDir_plain h, rfl⟩
  | readBytes k =>
    have hread := readBytes_plain (r := r) (k := k) h
    rw [Request.posix, execute]
    cases hc : content? (T.node k) with
    | none =>
      rw [hc] at hread
      exact agrees_reading_none h hread
    | some c =>
      rw [hc] at hread
      exact agrees_reading h ⟨_, hread, rfl⟩
  | iterdir k vpath =>
    have hlist := iterdir_decides (r := r) (k := k) vpath h
    rw [Request.posix, execute]
    by_cases hdir : T.IsDir k
    · rw [if_pos hdir]
      exact agrees_reading h ⟨_, hlist.eq_ok hdir,
        congrArg Answer.paths (Set.ext fun j => mem_listing h j)⟩
    · rw [if_neg hdir]
      exact agrees_reading_none h (hlist.eq_error hdir)
  | writeText k data | writeBytes k data =>
    exact (writeFile_reaches h (hclear k rfl) _ _).agrees_eq
  | appendText k data =>
    refine Reaches.agrees ?_
    rw [execute]
    exact (appendBytes_reaches h (hclear k rfl)).answer rfl
  | appendBytes k data => exact (appendBytes_reaches h (hclear k rfl)).agrees_eq
  | mkdir k parents existOk => exact (mkdir_reaches h (hclear k rfl)).agrees_eq
  | unlink k => exact (unlink_reaches h).agrees_eq
  | rmdir k => exact (rmdir_reaches h).agrees_eq
  | rename src dst => exact (rename_reaches h hdistinct).agrees_eq
  | createExclusive k mode => exact (createExclusive_reaches h (hclear k rfl)).agrees_eq
  | openFile k mode =>
    refine (openFile_reaches h fun hmode => hclear k ?_).agrees_eq
    cases mode with
    | read b => exact absurd rfl (hmode b).1
    | readUpdate b => exact absurd rfl (hmode b).2
    | write b | writeUpdate b | append b | appendUpdate b => rfl

end

/-! ## Runs -/

/-- A host and a mount on it. -/
structure World where
  host : HostTree
  mount : Mount

/-- Serves a request on a mount without limits. -/
def World.serve (r : Nat) (w : World) (request : Request) : Except MountError Value × World :=
  (answer (execute (plain w.host r) request) w.mount,
    { w with mount := after (execute (plain w.host r) request) w.mount })

/-- What an outcome tells: nothing about a failure but that it is one. -/
def outcome : Except MountError Value → Option Answer
  | .ok v => some v.answer
  | .error _ => none

/-- A request on a plain tree, which a failure leaves as it is. -/
noncomputable def posixStep (T : Tree String Bytes) (request : Request) :
    Option Answer × Tree String Bytes :=
  match request.posix T with
  | some (a, T') => (some a, T')
  | none => (none, T)

theorem serve_posixStep {r : Nat} {w : World} {T : Tree String Bytes} {request : Request}
    (h : Shows w.host w.mount.state T) (hdistinct : request.Distinct)
    (hclear : Clear w.host w.mount.state request) :
    outcome (w.serve r request).1 = (posixStep T request).1 ∧
      Shows w.host (w.serve r request).2.mount.state (posixStep T request).2 := by
  have hagrees : Agrees w.host T (execute (plain w.host r) request w.mount) (request.posix T) := by
    by_cases hburied : ∃ k, request.creates = some k ∧ Buried w.host w.mount.state k
    · obtain ⟨k, hcreates, hburied⟩ := hburied
      obtain ⟨err, herr⟩ := execute_buried hcreates hburied
      rw [hclear k hcreates hburied T h]
      exact ⟨err, w.mount, herr, h⟩
    · exact execute_agrees h request hdistinct fun k hk hb => hburied ⟨k, hk, hb⟩
  rw [World.serve, posixStep, answer, after]
  cases hposix : request.posix T with
  | none =>
    rw [hposix] at hagrees
    obtain ⟨err, m, hout, hm⟩ := hagrees
    rw [hout]
    exact ⟨rfl, hm⟩
  | some p =>
    rw [hposix] at hagrees
    obtain ⟨v, m, hout, ha, hm⟩ := hagrees
    rw [hout]
    exact ⟨congrArg some ha, hm⟩

def singleFile : HostTree where
  nodes := ⟨[⟨[], .dir⟩, ⟨["f"], .file []⟩], by simp [List.NodupKeys, List.keys]⟩
  root := rfl
  parent k n h := by
    have hk : k = [] := by
      by_contra hk
      refine h (AList.lookup_eq_none.mpr ?_)
      simp [AList.mem_keys, AList.keys, List.keys, List.append_eq_singleton_iff, hk]
    rw [hk]
    rfl

/-- A file of the host is moved into a new directory and read there. -/
def moveFile : List Request :=
  [.mkdir ["d"] false false, .rename ["f"] ["d", "f"], .readBytes ["d", "f"]]

/-- A file is deleted, a directory made in its place, and a file written in that. -/
def replaceFile : List Request :=
  [.unlink ["f"], .mkdir ["f"] false false, .writeBytes ["f", "x"] []]

end Monty.Fs
