import Monty.Fs.Lookup

/-!
# Lookups on a host of files and directories

On a `HostTree` no lookup meets a symbolic link, so each of them has one of two outcomes, which are
stated here in terms of the tree. There is one trap: a path that goes on below a regular file is
not absent but an error (`classifyTarget_belowFile`).
-/

namespace Monty.Fs

open FileTree List

namespace HostTree

variable {t : HostTree} {k path : Key} {v : Node Bytes}

theorem belowFile_iff :
    t.belowFile k = true ↔ ∃ j c, j <+: k ∧ j ≠ k ∧ t.node j = some (.file c) := by
  simp only [belowFile, any_eq_true, mem_range]
  constructor
  · rintro ⟨i, hi, h⟩
    split at h
    · next c hc =>
      refine ⟨k.take i, c, take_prefix i k, fun heq => ?_, hc⟩
      have hlen := congrArg List.length heq
      rw [length_take] at hlen
      omega
    · cases h
  · rintro ⟨j, c, hj, hne, hc⟩
    refine ⟨j.length, lt_of_le_of_ne hj.length_le fun h => hne (hj.eq_of_length h), ?_⟩
    rw [← prefix_iff_eq_take.mp hj, hc]

theorem belowFile_of_dir {n : String} (h : t.node k = some .dir) :
    t.belowFile (k ++ [n]) = false := by
  rw [Bool.eq_false_iff]
  intro hbelow
  obtain ⟨j, c, hj, hne, hc⟩ := belowFile_iff.mp hbelow
  rcases prefix_concat_iff.mp hj with rfl | ⟨l, rfl⟩
  · exact hne rfl
  by_cases hl : l = []
  · rw [hl, append_nil, hc] at h
    cases h
  · have hnode : t.toTree.node (j ++ l) ≠ none := fun hnone => by
      cases h.symm.trans hnone
    cases hc.symm.trans (Tree.isDir_of_append hl hnode : t.node j = some .dir)

theorem belowFile_of_node (h : t.node k ≠ none) : t.belowFile k = false := by
  rcases eq_nil_or_concat k with rfl | ⟨j, n, rfl⟩
  · rfl
  · rw [concat_eq_append] at h ⊢
    exact belowFile_of_dir (t.parent j n h)

theorem node_of_belowFile (h : t.belowFile k = true) : t.node k = none := by
  by_contra hk
  rw [belowFile_of_node hk] at h
  cases h

theorem find_eq_ok (h : t.node k = some v) : t.find k = .ok v := by rw [find, h]

theorem find_eq_error (h : t.node k = none) :
    t.find k = .error (osError (if t.belowFile k then .notADirectory else .notFound)) := by
  rw [find, h]

/-! ## The descriptor -/

theorem isDir_dir_iff : t.dir.isDir k = true ↔ t.node k = some .dir := by
  rw [HostDir.isDir, dir]
  cases h : t.node k with
  | none => simp [find_eq_error h, Except.map]
  | some v => cases v <;> simp [find_eq_ok h, Except.map, fileType]

theorem isFile_dir : t.dir.isFile k = (Tree.content? (t.node k)).isSome := by
  rw [HostDir.isFile, dir]
  cases h : t.node k with
  | none => simp [find_eq_error h, Except.map, Tree.content?]
  | some v => cases v <;> simp [find_eq_ok h, Except.map, fileType, Tree.content?]

theorem pathExists_dir_iff : t.dir.pathExists k = true ↔ t.node k ≠ none := by
  rw [HostDir.pathExists, dir]
  cases h : t.node k with
  | none => simp [find_eq_error h, Except.map, Except.toBool]
  | some v => simp [find_eq_ok h, Except.map, Except.toBool]

theorem mem_children {n : String} {ty : FileType} :
    (n, ty) ∈ t.children k ↔ ∃ v, t.node (k ++ [n]) = some v ∧ ty = fileType v := by
  simp only [children, mem_filterMap]
  constructor
  · rintro ⟨⟨j, v⟩, hmem, h⟩
    split at h
    · next name hname =>
      simp only [Option.ite_none_right_eq_some, Option.some.injEq, Prod.mk.injEq] at h
      obtain ⟨rfl, rfl, rfl⟩ := h
      refine ⟨v, AList.mem_lookup_iff.mpr ?_, rfl⟩
      rwa [dropLast_append_getLast? _ hname]
    · cases h
  · rintro ⟨v, hv, rfl⟩
    exact ⟨⟨k ++ [n], v⟩, AList.mem_lookup_iff.mp hv, by simp⟩

theorem readDir_dir (h : t.node k = some .dir) : t.dir.readDir k = .ok (t.children k) := by
  show t.ifDir k (t.children k) = _
  rw [ifDir, find_eq_ok h]

/-! ## Classification -/

/-- What the tree has at a path. -/
def target (t : HostTree) (k : Key) : RealTarget :=
  match t.node k with
  | some .dir => .dir
  | some (.file _) => .file
  | none => .absent

theorem classifyTarget_dir (h : t.belowFile k = false) :
    classifyTarget t.dir k path = .ok (t.target k) := by
  rw [classifyTarget, dir, target]
  cases hk : t.node k with
  | none => simp [find_eq_error hk, h, Except.map, osError]
  | some v => cases v <;> simp [find_eq_ok hk, Except.map, fileType]

/-- **Below a regular file nothing is absent**: the lookup fails. -/
theorem classifyTarget_belowFile (h : t.belowFile k = true) :
    classifyTarget t.dir k path = .error (.io (osError .notADirectory) path) := by
  simp [classifyTarget, dir, find_eq_error (node_of_belowFile h), h, Except.map, osError, mapIo]

/-- The walk is level with a path: it stands in the directory there, or there is none. -/
def Level (t : HostTree) (walk : ComponentWalk) (k : Key) : Prop :=
  if walk.exhausted then t.node k ≠ some .dir else walk.current = k ∧ t.node k = some .dir

theorem level_new : t.Level .new [] := ⟨rfl, t.root⟩

variable {walk : ComponentWalk}

/-- **A step of the walk** never fails and tells what the tree has. -/
theorem step_dir (h : t.Level walk k) (component : String) (path : Key) :
    ∃ walk', walk.step t.dir component path = .ok (t.target (k ++ [component]), walk') ∧
      t.Level walk' (k ++ [component]) := by
  rw [Level] at h
  rw [ComponentWalk.step]
  cases hex : walk.exhausted with
  | true =>
    rw [hex, if_pos rfl] at h
    have hnone : t.node (k ++ [component]) = none := by
      by_contra hnode
      exact h (t.parent k component hnode)
    refine ⟨walk, by simp [target, hnone], ?_⟩
    rw [Level, hex, if_pos rfl, hnone]
    simp
  | false =>
    rw [hex, if_neg (by simp)] at h
    obtain ⟨rfl, hdir⟩ := h
    simp only [Bool.false_eq_true, if_false, classifyTarget_dir (belowFile_of_dir hdir)]
    rcases hnode : t.node (walk.current ++ [component]) with _ | c | _
    case some.dir =>
      refine ⟨{ walk with current := walk.current ++ [component] },
        by simp [target, hnode, dir, ifDir, find_eq_ok hnode, hex], ?_⟩
      rw [Level, hex, if_neg (by simp)]
      exact ⟨rfl, hnode⟩
    all_goals
      refine ⟨{ walk with exhausted := true }, by simp [target, hnode], ?_⟩
      rw [Level, if_pos rfl, hnode]
      simp

theorem target_ne_symlink : t.target k ≠ .symlink := by
  rw [target]
  split <;> simp

theorem rejectSymlinks_dir (h : t.Level walk k) (rest : List String) :
    rejectSymlinks t.dir path walk rest = .ok () := by
  induction rest generalizing walk k with
  | nil => rfl
  | cons component rest ih =>
    obtain ⟨walk', hstep, hlevel⟩ := step_dir h component path
    rw [rejectSymlinks, hstep]
    cases htarget : t.target (k ++ [component]) with
    | dir => exact ih hlevel
    | file => rfl
    | absent => rfl
    | symlink => exact absurd htarget target_ne_symlink

@[simp] theorem rejectSymlinkChain_dir : rejectSymlinkChain t.dir k path = .ok () :=
  rejectSymlinks_dir level_new k

@[simp] theorem resolveReal_dir : resolveReal t.dir k = .ok () := rejectSymlinkChain_dir

theorem resolveRealPathState_dir {onFailure : OnLookupFailure}
    (h : onFailure = .missing ∨ t.belowFile k = false) : resolveRealPathState t.dir k onFailure =
      .ok (if t.node k = none then .missing else .present) := by
  rw [resolveRealPathState, resolveReal_dir, dir]
  cases hk : t.node k with
  | none => rcases h with h | h <;> simp [find_eq_error hk, Except.map, h, osError]
  | some v => simp [find_eq_ok hk, Except.map]

theorem resolveRealPathState_belowFile (h : t.belowFile k = true) :
    resolveRealPathState t.dir k .propagate = .error (.io (osError .notADirectory) k) := by
  rw [resolveRealPathState, resolveReal_dir, dir]
  simp [find_eq_error (node_of_belowFile h), h, Except.map, osError, mapIo]

/-! ## Reading -/

theorem readFileLimited_file {c : Bytes} (h : t.node k = some (.file c)) :
    readFileLimited t.dir k path .unlimited = .ok c := by
  simp [readFileLimited, rejectNonRegular, openRegular, dir, find_eq_ok h, Except.map, fileType,
    bind, Except.bind, pure, Except.pure, MemoryBudget.unlimited, MemoryBudget.check,
    Limit.exceededBy]

theorem readFileLimited_error (h : ∀ c, t.node k ≠ some (.file c)) (path : Key) :
    ∃ err, readFileLimited t.dir k path .unlimited = .error err := by
  cases hk : t.node k with
  | none =>
    exact ⟨_, by simp [readFileLimited, rejectNonRegular, openRegular, dir, find_eq_error hk,
      Except.map, bind, Except.bind]; rfl⟩
  | some v =>
    cases v with
    | file c => exact absurd hk (h c)
    | dir =>
      exact ⟨_, by simp [readFileLimited, rejectNonRegular, dir, find_eq_ok hk, Except.map,
        fileType, bind, Except.bind]; rfl⟩

theorem fromRelative_dir : OverlayEntry.fromRelative t.dir k =
    (Tree.content? (t.node k)).map fun _ => .realFileRef k := by
  rw [OverlayEntry.fromRelative, dir]
  cases h : t.node k with
  | none => simp [find_eq_error h, Except.map, Tree.content?]
  | some v => cases v <;> simp [find_eq_ok h, Except.map, fileType, Tree.content?]

theorem fileLen_file {c : Bytes} (h : t.node k = some (.file c)) :
    fileLen t.dir k path = .ok c.length := by
  simp [fileLen, dir, find_eq_ok h, Except.map, len]

end HostTree

end Monty.Fs
