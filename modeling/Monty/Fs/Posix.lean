import Monty.Fs.Shows

/-!
# Requests on a plain tree

`Request.posix` is what a request means on a single tree of files and directories, with POSIX rules:
it fails, or gives an answer and a tree. `Agrees` compares that with what the overlay did.

This file has the requests that concern one path and its entry. Directories that are made together
with their parents, listings and moves of whole subtrees are in the next ones.
-/

namespace Monty.Fs

open FileTree FileTree.Tree Fallible OverlayState HostTree

/-- What a request tells about the tree. -/
inductive Answer
  | done
  | bool (b : Bool)
  | bytes (content : Bytes)
  | int (n : Nat)
  | paths (paths : Set Key)
  | handle (path : Key) (mode : FileMode)

/-- What the overlay's answer tells; the order of a listing is no part of it. -/
def Value.answer : Value → Answer
  | .none => .done
  | .bool b => .bool b
  | .bytes content => .bytes content
  | .int n => .int n
  | .list paths => .paths {k | k ∈ paths}
  | .handle path mode => .handle path mode

noncomputable def openPosix (T : Tree String Bytes) (k : Key) : FileMode →
    Option (Tree String Bytes)
  | .read _ | .readUpdate _ => (content? (T.node k)).map fun _ => T
  | .write _ | .writeUpdate _ => T.modify k fun _ => []
  | .append _ | .appendUpdate _ => T.modify k fun old => old.getD []

open Classical in
noncomputable def Request.posix (T : Tree String Bytes) :
    Request → Option (Answer × Tree String Bytes)
  | .pathExists k => some (.bool (T.node k).isSome, T)
  | .isFile k => some (.bool (content? (T.node k)).isSome, T)
  | .isDir k => some (.bool (decide (T.IsDir k)), T)
  | .readBytes k => (content? (T.node k)).map fun c => (.bytes c, T)
  | .writeText k data =>
    (T.modify k fun _ => data.toUTF8.data.toList).map fun T' => (.int data.length, T')
  | .writeBytes k data => (T.modify k fun _ => data).map fun T' => (.int data.length, T')
  | .appendText k data =>
    (T.modify k fun old => old.getD [] ++ data.toUTF8.data.toList).map fun T' =>
      (.int data.length, T')
  | .appendBytes k data =>
    (T.modify k fun old => old.getD [] ++ data).map fun T' => (.int data.length, T')
  | .mkdir k parents existOk => (T.mkdir k parents existOk).map fun T' => (.done, T')
  | .unlink k => (T.unlink k).map fun T' => (.done, T')
  | .rmdir k => (T.rmdir k).map fun T' => (.done, T')
  | .iterdir k _ =>
    if T.IsDir k then some (.paths {p | ∃ n, p = k ++ [n] ∧ T.node p ≠ none}, T) else none
  | .rename src dst => (T.rename src dst).map fun T' => (.done, T')
  | .createExclusive k mode => (T.create k []).map fun T' => (.handle k mode, T')
  | .openFile k mode => (openPosix T k mode).map fun T' => (.handle k mode, T')

/-- The overlay did what the plain tree does. -/
def Agrees (t : HostTree) (T : Tree String Bytes) (out : EStateM.Result MountError Mount Value)
    (expected : Option (Answer × Tree String Bytes)) : Prop :=
  match expected with
  | some (a, T') => ∃ v m, out = .ok v m ∧ v.answer = a ∧ Shows t m.state T'
  | none => ∃ err m, out = .error err m ∧ Shows t m.state T

/-- As `Agrees`, for a program that is a part of a request: it fails, or ends with the tree and an
answer as described. -/
def Reaches {α : Type} (t : HostTree) (T : Tree String Bytes)
    (out : EStateM.Result MountError Mount α) (P : α → Prop)
    (expected : Option (Tree String Bytes)) : Prop :=
  match expected with
  | some T' => ∃ a m, out = .ok a m ∧ P a ∧ Shows t m.state T'
  | none => ∃ err m, out = .error err m ∧ Shows t m.state T

variable {t : HostTree} {T : Tree String Bytes} {m : Mount} {k : Key} {r : Nat}

variable {expected : Option (Tree String Bytes)}

theorem Reaches.agrees {out : EStateM.Result MountError Mount Value} {a : Answer}
    (h : Reaches t T out (fun v => v.answer = a) expected) :
    Agrees t T out (expected.map fun T' => (a, T')) := by
  cases expected with
  | none => exact h
  | some T' => exact h

variable {α : Type} {P : α → Prop} {out : EStateM.Result MountError Mount α}

theorem Reaches.mono {Q : α → Prop} (h : Reaches t T out P expected)
    (hPQ : ∀ a, P a → Q a) : Reaches t T out Q expected := by
  cases expected with
  | none => exact h
  | some T' =>
    obtain ⟨a, m', hout, ha, hm'⟩ := h
    exact ⟨a, m', hout, hPQ a ha, hm'⟩

theorem Reaches.agrees_eq {out : EStateM.Result MountError Mount Value} {v : Value}
    (h : Reaches t T out (· = v) expected) :
      Agrees t T out (expected.map fun T' => (v.answer, T')) :=
  (h.mono fun _ hv => congrArg Value.answer hv).agrees

/-- A program with the right effect, followed by its answer. -/
theorem Reaches.answer {β : Type} {x : OverlayM α} {b : β} {Q : β → Prop}
    (h : Reaches t T (x m) P expected) (hb : Q b) :
    Reaches t T ((x >>= fun _ => pure b) m) Q expected := by
  cases expected with
  | none =>
    obtain ⟨err, m', hout, hm'⟩ := h
    exact ⟨err, m', bind_of_error hout, hm'⟩
  | some T' =>
    obtain ⟨a, m', hout, -, hm'⟩ := h
    exact ⟨b, m', bind_of_ok hout, hb, hm'⟩

/-! ## Without limits nothing is refused -/

variable {n : Nat}

theorem checkWriteLimit_plain : checkWriteLimit (plain t r) m n = .ok () := rfl

variable {s : OverlayState}

theorem checkFileReplacement_plain : s.checkFileReplacement r k n none = .ok () := rfl

theorem checkReplacements_plain {changes : List (Key × OverlayEntry)} :
    s.checkReplacements r changes none = .ok () := rfl

theorem availableMemory_plain : availableMemory (plain t r) s = .ok .unlimited := rfl

theorem insertEntry_plain {entry : OverlayEntry} : insertEntry (plain t r) k entry m =
    .ok ⟨⟩ { m with state := m.state.put r k entry } :=
  onState_apply_ok (by rw [insert_apply]; rfl)

theorem commitWriteBytes_plain : commitWriteBytes (plain t r) n m = .ok ⟨⟩ m := rfl

/-! ## Reading -/

variable (h : Shows t m.state T)

section

variable {s : OverlayState} {f : OverlayState → Except MountError Value} {a : Answer}

include h in
theorem agrees_reading (hf : ∃ v, f m.state = .ok v ∧ v.answer = a) :
    Agrees t T (reading f m) (some (a, T)) := by
  obtain ⟨v, hv, ha⟩ := hf
  exact ⟨v, m, by rw [reading, get_bind_apply, hv, lift_ok], ha, h⟩

include h in
theorem agrees_reading_none (hf : ∃ err, f m.state = .error err) :
    Agrees t T (reading f m) none := by
  obtain ⟨err, herr⟩ := hf
  exact ⟨err, m, by rw [reading, get_bind_apply, herr, lift_error], h⟩

theorem pathExists_plain (h : Shows t s T) :
    pathExists (plain t r) s k = .ok (.bool (T.node k).isSome) := by
  rw [pathExists]
  cases hget : s.get k with
  | none =>
    simp only [resolveRealPathState_dir (.inl rfl), bind, h.node_of_none hget]
    cases t.node k <;> rfl
  | some entry =>
    cases h.found hget <;> next hnode =>
      rw [hnode]
      rfl

theorem isFile_plain (h : Shows t s T) :
    isFile (plain t r) s k = .ok (.bool (content? (T.node k)).isSome) := by
  rw [isFile]
  cases hget : s.get k with
  | none =>
    simp only [resolveRealPathState_dir (.inl rfl), bind, h.node_of_none hget, isFile_dir]
    cases t.node k <;> rfl
  | some entry =>
    cases h.found hget <;> next hnode =>
      rw [hnode]
      rfl

open Classical in
theorem isDir_plain (h : Shows t s T) :
    isDir (plain t r) s k = .ok (.bool (decide (T.IsDir k))) := by
  rw [isDir]
  cases hget : s.get k with
  | none =>
    simp only [resolveRealPathState_dir (.inl rfl), bind, Except.bind, Tree.IsDir,
      h.node_of_none hget]
    have hdir : t.dir.isDir k = decide (t.node k = some .dir) := by
      rw [Bool.eq_iff_iff, isDir_dir_iff, decide_eq_true_iff]
    cases hk : t.node k with
    | none => simp [pure, Except.pure]
    | some v => simp [hdir, hk, pure, Except.pure]
  | some entry =>
    cases h.found hget with
    | file hnode | realFileRef _ hnode | directory hnode | deleted hnode => simp [Tree.IsDir, hnode]

/-- What a file holds is what the tree has, or reading fails. -/
theorem readBytes_plain (h : Shows t s T) : match content? (T.node k) with
    | some c => readBytes (plain t r) s k = .ok (.bytes c)
    | none => ∃ err, readBytes (plain t r) s k = .error err := by
  rw [readBytes]
  cases hget : s.get k with
  | none =>
    rw [availableMemory_plain]
    simp only [resolveReal_dir, bind, Except.bind, h.node_of_none hget]
    rcases hk : t.node k with _ | c | _
    case some.file =>
      rw [readFileLimited_file hk]
      rfl
    all_goals
      obtain ⟨err, herr⟩ := readFileLimited_error (t := t) (k := k) (by simp [hk]) k
      rw [herr]
      exact ⟨err, rfl⟩
  | some entry =>
    cases h.found hget with
    | file hk =>
      rw [hk]
      rfl
    | realFileRef hc hk =>
      rw [availableMemory_plain]
      simp only [hk, content?, rejectSymlinkChain_dir, bind, Except.bind, readFileLimited_file hc]
      rfl
    | directory hk | deleted hk =>
      rw [hk]
      exact ⟨_, rfl⟩

end

/-! ## Writing -/

variable {f : Option Bytes → Bytes}

include h in
/-- A program that fails unless the path can be written, and else leaves a file there. -/
theorem reaches_modify (hok : T.IsDir k.dropLast → ¬ T.IsDir k → ∃ a m', out = .ok a m' ∧ P a ∧
      ∀ j, m'.state.get j = if j = k then some (.file (f (content? (T.node k)))) else m.state.get j)
    (herror : ¬ (T.IsDir k.dropLast ∧ ¬ T.IsDir k) → ∃ err, out = .error err m) :
    Reaches t T out P (T.modify k f) := by
  by_cases hk : T.IsDir k.dropLast ∧ ¬ T.IsDir k
  · obtain ⟨a, m', hout, ha, hm'⟩ := hok hk.1 hk.2
    have hne := ne_nil_of_not_isDir hk.2
    have hmod : T.Placeable k ∧ ¬ T.IsDir k := ⟨⟨hne, hk.1⟩, hk.2⟩
    rw [Tree.modify, dif_pos hmod]
    exact ⟨a, m', hout, ha, h.update hm' (fun j => node_put j) hne nofun
      (h.children_of_not_isDir hk.2)⟩
  · obtain ⟨err, hout⟩ := herror hk
    rw [Tree.modify, dif_neg fun hmod => hk ⟨hmod.1.2, hmod.2⟩]
    exact ⟨err, m, hout, h⟩

variable (hburied : ¬ Buried t m.state k)

include h hburied in
/-- A program that checks the parent and the target, and goes on to leave a file there. -/
theorem reaches_checked {x : OverlayM α} (hx : T.IsDir k.dropLast → ¬ T.IsDir k →
      ∃ a m', x m = .ok a m' ∧ P a ∧
        ∀ j, m'.state.get j = if j = k then some (.file (f (content? (T.node k))))
          else m.state.get j) :
    Reaches t T ((lift (ensureParentExists m.state t.dir k) >>= fun _ =>
      lift (rejectDirectoryTarget m.state t.dir k) >>= fun _ => x) m) P (T.modify k f) := by
  have hparent := h.ensureParentExists_decides k
  by_cases hdir : T.IsDir k.dropLast
  · have htarget := h.rejectDirectoryTarget_decides fun hk => h.belowFile_eq_false hburied hk hdir
    rw [lift_bind_of_ok (hparent.eq_ok hdir)]
    refine reaches_modify h (fun _ hk => ?_) fun hnot => ?_
    · rw [lift_bind_of_ok (htarget.eq_ok hk)]
      exact hx hdir hk
    · obtain ⟨err, herr⟩ := htarget.eq_error fun hk => hnot ⟨hdir, hk⟩
      exact ⟨err, lift_bind_of_error herr⟩
  · obtain ⟨err, herr⟩ := hparent.eq_error hdir
    exact reaches_modify h (fun hdir' => absurd hdir' hdir) fun _ => ⟨err, lift_bind_of_error herr⟩

include h hburied in
theorem writeFile_reaches (data : Bytes)
    (count : Nat) : Reaches t T (writeFile (plain t r) k data count m) (· = .int count)
      (T.modify k fun _ => data) := by
  refine reaches_checked h hburied fun _ _ =>
    ⟨_, { m with state := m.state.put r k (.file data) }, ?_, rfl, fun j => get_put⟩
  rw [lift_bind_of_ok checkFileReplacement_plain, bind_of_ok insertEntry_plain,
    bind_of_ok commitWriteBytes_plain, pure_apply]

theorem existingFile_plain (h : Shows t s T)
    (hbelow : s.get k = none → t.belowFile k = false) (hk : ¬ T.IsDir k) :
    (∃ n, existingFileLen s t.dir k = .ok n) ∧
      existingFileBytes s t.dir k .unlimited = .ok ((content? (T.node k)).getD []) := by
  rw [existingFileLen, existingFileBytes]
  cases hget : s.get k with
  | none =>
    rw [Tree.IsDir, h.node_of_none hget] at hk
    rw [h.node_of_none hget]
    simp only [resolveRealPathState_dir (.inr (hbelow hget)), bind]
    cases hnode : t.node k with
    | none => exact ⟨⟨0, rfl⟩, rfl⟩
    | some v =>
      cases v with
      | dir => exact absurd hnode hk
      | file c =>
        exact ⟨⟨c.length, fileLen_file hnode⟩, readFileLimited_file hnode⟩
  | some entry =>
    cases h.found hget with
    | file hnode =>
      rw [hnode]
      exact ⟨⟨_, rfl⟩, rfl⟩
    | realFileRef hc hnode =>
      rw [hnode]
      simp only [rejectSymlinkChain_dir, bind]
      exact ⟨⟨_, fileLen_file hc⟩, readFileLimited_file hc⟩
    | directory hnode => exact absurd hnode hk
    | deleted hnode =>
      rw [hnode]
      exact ⟨⟨0, rfl⟩, rfl⟩

include h in
theorem extendFile_plain
    (hbelow : m.state.get k = none → t.belowFile k = false) (hk : ¬ T.IsDir k) (data : Bytes)
    (existingLen : Nat) : ∃ m', extendFile (plain t r) k data existingLen m = .ok ⟨⟩ m' ∧
      ∀ j, m'.state.get j = if j = k then some (.file ((content? (T.node k)).getD [] ++ data))
        else m.state.get j := by
  have hmaterialize : (∀ c, m.state.get k ≠ some (.file c)) →
      ∃ m', extendFile (plain t r) k data existingLen m = .ok ⟨⟩ m' ∧
      ∀ j, m'.state.get j = if j = k then some (.file ((content? (T.node k)).getD [] ++ data))
        else m.state.get j := fun hnot => by
    have happend : onState (appendFile k data none) m = .ok false m := by
      refine onState_apply_ok ?_
      rw [appendFile_apply]
      split
      · next c hc => exact absurd hc (hnot c)
      · rfl
    refine ⟨{ m with state := m.state.put r k (.file ((content? (T.node k)).getD [] ++ data)) }, ?_,
      fun j => get_put⟩
    rw [extendFile, bind_of_ok happend, if_neg (by simp), materialize, get_bind_apply,
      lift_bind_of_ok checkFileReplacement_plain, lift_bind_of_ok availableMemory_plain,
      lift_bind_of_ok (MemoryBudget.check_unlimited _),
      lift_bind_of_ok (MemoryBudget.shrink_unlimited _),
      lift_bind_of_ok (existingFile_plain h hbelow hk).2, insertEntry_plain]
  cases hget : m.state.get k with
  | none => exact hmaterialize fun c hc => by cases hget.symm.trans hc
  | some entry =>
    cases entry with
    | file c =>
      have happend : onState (appendFile k data none) m = .ok true
          { m with state := ⟨m.state.entries.insert k (.file (c ++ data)),
            m.state.memoryUsage + data.length⟩ } := by
        refine onState_apply_ok ?_
        rw [appendFile_apply, hget]
        rfl
      refine ⟨_, bind_of_ok happend, fun j => ?_⟩
      rw [h.node_of_entry hget]
      exact get_put (r := r)
    | realFileRef _ | directory | deleted =>
      exact hmaterialize fun c hc => by cases hget.symm.trans hc

include h hburied in
theorem appendBytes_reaches
    {data : Bytes} : Reaches t T (appendBytes (plain t r) k data m) (· = .int data.length)
      (T.modify k fun old => old.getD [] ++ data) := by
  refine reaches_checked h hburied fun hdir hk => ?_
  have hbelow := fun hget => h.belowFile_eq_false hburied hget hdir
  obtain ⟨n, hn⟩ := (existingFile_plain h hbelow hk).1
  obtain ⟨m', hextend, hm'⟩ := extendFile_plain h hbelow hk data n
  refine ⟨_, m', ?_, rfl, hm'⟩
  rw [lift_bind_of_ok hn, lift_bind_of_ok checkWriteLimit_plain, bind_of_ok hextend,
    bind_of_ok commitWriteBytes_plain, pure_apply]

/-! ## Creating and opening -/

theorem occupied_plain (h : Shows t s T) (hbelow : s.get k = none → t.belowFile k = false) :
    occupied (plain t r) s k = .ok (T.node k).isSome := by
  rw [occupied]
  cases hget : s.get k with
  | none =>
    simp only [classifyTarget_dir (hbelow hget), bind, HostTree.target, h.node_of_none hget]
    cases t.node k with
    | none => rfl
    | some v => cases v <;> rfl
  | some entry =>
    cases h.found hget <;> next hnode =>
      rw [hnode]
      rfl

variable {mode : FileMode}

include h hburied in
theorem createExclusive_reaches : Reaches t T (createExclusive (plain t r) k mode m)
    (· = .handle k mode)
      (T.create k []) := by
  have hparent := h.ensureParentExists_decides k
  rw [createExclusive, get_bind_apply]
  by_cases hdir : T.IsDir k.dropLast
  · have hoccupied := occupied_plain (r := r) h fun hk => h.belowFile_eq_false hburied hk hdir
    rw [lift_bind_of_ok (hparent.eq_ok hdir)]
    cases hnode : T.node k with
    | none =>
      have hfree : rejectOccupied (plain t r) m.state k = .ok () := by
        rw [rejectOccupied, hoccupied, hnode]
        rfl
      have hk : ¬ T.IsDir k := by rw [Tree.IsDir, hnode]; simp
      have hne := ne_nil_of_not_isDir hk
      have hcreate : T.Placeable k ∧ T.node k = none := ⟨⟨hne, hdir⟩, hnode⟩
      rw [lift_bind_of_ok hfree, lift_bind_of_ok checkWriteLimit_plain,
        bind_of_ok insertEntry_plain, pure_apply, Tree.create, dif_pos hcreate]
      exact ⟨_, _, rfl, rfl, h.update (fun j => get_put) (fun j => node_put j) hne nofun
        (h.children_of_not_isDir hk)⟩
    | some v =>
      have htaken : rejectOccupied (plain t r) m.state k = .error (.fileExists k) := by
        rw [rejectOccupied, hoccupied, hnode]
        rfl
      rw [lift_bind_of_error htaken, Tree.create, dif_neg fun hcreate => by
        rw [hnode] at hcreate
        cases hcreate.2]
      exact ⟨_, m, rfl, h⟩
  · obtain ⟨err, herr⟩ := hparent.eq_error hdir
    rw [lift_bind_of_error herr, Tree.create, dif_neg fun hcreate => hdir hcreate.1.2]
    exact ⟨err, m, rfl, h⟩

theorem openRead_decides (h : Shows t s T) :
    Decides (openRead (plain t r) s k) ((content? (T.node k)).isSome = true) () := by
  rw [openRead]
  cases hget : s.get k with
  | none =>
    rw [h.node_of_none hget]
    by_cases hbelow : t.belowFile k = true
    · -- the lookup of a path below a file fails, and there is nothing at it
      rw [resolveRealPathState_belowFile hbelow]
      exact .error (by simp [node_of_belowFile hbelow, content?])
    rw [resolveRealPathState_dir (.inr (Bool.eq_false_iff.mpr hbelow))]
    cases hnode : t.node k with
    | none => exact .error (by simp [content?])
    | some v =>
      simp only [bind, reduceCtorEq, if_false, isDir_dir_iff, hnode]
      cases v with
      | file c => exact .ok rfl
      | dir => exact .error (by simp [content?])
  | some entry =>
    cases h.found hget with
    | file hnode | realFileRef _ hnode => exact .ok (by simp [hnode, content?])
    | directory hnode | deleted hnode => exact .error (by simp [hnode, content?])

variable (h : Shows t m.state T)

include h

/-- Opening a file that is there for appending changes nothing. -/
theorem reaches_modify_same {c : Bytes} (hk : T.node k = some (.file c)) :
    Reaches t T (.ok ⟨⟩ m : EStateM.Result MountError Mount Unit) (fun _ => True)
      (T.modify k fun old => old.getD []) := by
  rw [Tree.modify, dif_pos ⟨placeable_of_file hk, not_isDir_of_file hk⟩]
  refine ⟨⟨⟩, m, rfl, trivial, h.congr fun j => ?_⟩
  rw [node_put]
  by_cases hj : j = k
  · rw [if_pos hj, hj, hk]
    rfl
  · rw [if_neg hj]

/-- Opening a file that is not there for appending makes it. -/
theorem reaches_modify_empty (hnode : T.node k = none) :
    Reaches t T ((lift (ensureParentExists m.state t.dir k) >>= fun _ =>
      insertEntry (plain t r) k (.file [])) m) (fun _ => True)
        (T.modify k fun old => old.getD []) := by
  have hparent := h.ensureParentExists_decides k
  have hk : ¬ T.IsDir k := by rw [Tree.IsDir, hnode]; simp
  refine reaches_modify h (fun hdir _ => ?_) (fun hnot => ?_)
  · refine ⟨⟨⟩, { m with state := m.state.put r k (.file []) }, ?_, trivial, fun j => ?_⟩
    · rw [lift_bind_of_ok (hparent.eq_ok hdir), insertEntry_plain]
    · rw [hnode]
      exact get_put
  · obtain ⟨err, herr⟩ := hparent.eq_error fun hdir => hnot ⟨hdir, hk⟩
    exact ⟨err, by rw [lift_bind_of_error herr]⟩

theorem reaches_modify_isDir (hk : T.IsDir k) {err : MountError} :
    Reaches t T (.error err m : EStateM.Result MountError Mount α) P (T.modify k f) := by
  rw [Tree.modify, dif_neg fun hmod => hmod.2 hk]
  exact ⟨err, m, rfl, h⟩

include hburied in
theorem ensureAppendTargetExists_reaches :
    Reaches t T (ensureAppendTargetExists (plain t r) k m) (fun _ => True)
      (T.modify k fun old => old.getD []) := by
  rw [ensureAppendTargetExists, get_bind_apply]
  cases hget : m.state.get k with
  | none =>
    simp only
    rw [lift_bind_of_ok resolveReal_dir]
    by_cases hbelow : t.belowFile k = true
    · -- the path is below a file of the tree as well
      obtain ⟨j, c, hjk, hne, hj⟩ := h.file_above hburied hget hbelow
      have hnot := Shows.not_isDir_dropLast hjk hne (not_isDir_of_file hj)
      rw [lift_bind_of_error (classifyTarget_belowFile hbelow), Tree.modify,
        dif_neg fun hmod => hnot hmod.1.2]
      exact ⟨_, m, rfl, h⟩
    have hnode := h.node_of_none hget
    rw [lift_bind_of_ok (classifyTarget_dir (Bool.eq_false_iff.mpr hbelow)), HostTree.target]
    cases hk : t.node k with
    | none => exact reaches_modify_empty h (hnode.trans hk)
    | some v =>
      cases v with
      | dir => exact reaches_modify_isDir h (hnode.trans hk)
      | file c =>
        have hfile := hnode.trans hk
        have hparent := (h.ensureParentExists_decides k).eq_ok (placeable_of_file hfile).2
        simp only [hparent, lift_ok]
        exact reaches_modify_same h hfile
  | some entry =>
    cases h.found hget with
    | file hnode | realFileRef _ hnode => exact reaches_modify_same h hnode
    | directory hnode => exact reaches_modify_isDir h hnode
    | deleted hnode => exact reaches_modify_empty h hnode

/-- **Opening a file**, in every mode. -/
theorem openFile_reaches
    (hburied : (∀ b, mode ≠ .read b ∧ mode ≠ .readUpdate b) → ¬ Buried t m.state k) :
    Reaches t T (openFile (plain t r) k mode m) (· = .handle k mode) (openPosix T k mode) := by
  have hread : Reaches t T ((do lift (openRead (plain t r) m.state k) : OverlayM Unit) m)
      (fun _ => True) ((content? (T.node k)).map fun _ => T) := by
    have hopen := openRead_decides (r := r) (k := k) h
    cases hc : content? (T.node k) with
    | none =>
      obtain ⟨err, herr⟩ := hopen.eq_error (by simp [hc])
      exact ⟨err, m, by rw [herr, lift_error], h⟩
    | some c => exact ⟨⟨⟩, m, by rw [hopen.eq_ok (by simp [hc]), lift_ok], trivial, h⟩
  have hwrite : ¬ Buried t m.state k → Reaches t T
      ((do let _ ← writeText (plain t r) k "" : OverlayM Unit) m) (fun _ => True)
      (T.modify k fun _ => []) := fun hb => by
    have hfile := writeFile_reaches (r := r) h hb [] 0
    exact hfile.answer trivial
  cases mode with
  | read b | readUpdate b => exact hread.answer rfl
  | write b | writeUpdate b => exact (hwrite (hburied fun b' => by simp)).answer rfl
  | append b | appendUpdate b =>
    exact (ensureAppendTargetExists_reaches h (hburied fun b' => by simp)).answer rfl

end Monty.Fs
