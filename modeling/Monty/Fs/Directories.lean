import Monty.Fs.Posix

/-!
# Deletion and directories on a plain tree

A directory is empty if nothing visible is in it, which the overlay finds out from its own entries
and the host's names (`Shows.empty_iff`). Making a directory together with its parents records all
that are not directories yet (`dirsToCreate_spec`), and a listing merges the two sides.
-/

namespace Monty.Fs

open FileTree FileTree.Tree Fallible OverlayState HostTree List

variable {t : HostTree} {T : Tree String Bytes} {m : Mount} {s : OverlayState} {k : Key} {r : Nat}

/-! ## Removing files -/

theorem unlinkTarget_decides (h : Shows t s T) :
    Decides (unlinkTarget (plain t r) s k) (∃ c, T.node k = some (.file c)) () := by
  rw [unlinkTarget]
  cases hget : s.get k with
  | none =>
    have hnode := h.node_of_none hget
    by_cases hdir : T.IsDir k.dropLast
    · rw [(h.ensureParentExists_decides k).eq_ok hdir, resolveReal_dir]
      by_cases hbelow : t.belowFile k = true
      · rw [classifyTarget_belowFile hbelow]
        exact .error (by simp [hnode, node_of_belowFile hbelow])
      rw [classifyTarget_dir (Bool.eq_false_iff.mpr hbelow), HostTree.target, hnode]
      cases t.node k with
      | none => exact .error (by simp)
      | some v =>
        cases v with
        | file c => exact .ok ⟨c, rfl⟩
        | dir => exact .error (by simp)
    · obtain ⟨err, herr⟩ := (h.ensureParentExists_decides k).eq_error hdir
      rw [herr]
      refine .error ?_
      rintro ⟨c, hc⟩
      exact hdir (placeable_of_file hc).2
  | some entry =>
    cases h.found hget with
    | file hnode | realFileRef _ hnode => exact .ok ⟨_, hnode⟩
    | directory hnode | deleted hnode => exact .error (by simp [hnode])

theorem unlink_reaches (h : Shows t m.state T) :
    Reaches t T (unlink (plain t r) k m) (· = .none) (T.unlink k) := by
  have htarget := unlinkTarget_decides (r := r) (k := k) h
  rw [unlink, get_bind_apply, Tree.unlink]
  by_cases hfile : ∃ c, T.node k = some (.file c)
  · rw [dif_pos hfile, lift_bind_of_ok (htarget.eq_ok hfile), bind_of_ok insertEntry_plain,
      pure_apply]
    obtain ⟨c, hc⟩ := hfile
    exact ⟨_, _, rfl, rfl, h.update (fun j => get_put) (fun j => node_take j)
      (placeable_of_file hc).1
      (fun _ hdel => nomatch hdel) (h.children_of_not_isDir (not_isDir_of_file hc))⟩
  · obtain ⟨err, herr⟩ := htarget.eq_error hfile
    rw [dif_neg hfile, lift_bind_of_error herr]
    exact ⟨err, m, rfl, h⟩

/-! ## Removing directories -/

theorem overlayDirectoryHasChildren_iff : overlayDirectoryHasChildren s k = true ↔
    ∃ j entry, k <+: j ∧ j ≠ k ∧ s.get j = some entry ∧ entry ≠ .deleted := by
  simp only [overlayDirectoryHasChildren, any_eq_true, decide_eq_true_eq]
  constructor
  · rintro ⟨⟨j, entry⟩, hp, hentry⟩
    obtain ⟨hget, hkj, hne⟩ := mem_prefixIter.mp hp
    exact ⟨j, entry, hkj, hne, hget, hentry⟩
  · rintro ⟨j, entry, hkj, hne, hget, hentry⟩
    exact ⟨(j, entry), mem_prefixIter.mpr ⟨hget, hkj, hne⟩, hentry⟩

theorem realDirectoryHasVisibleChildren_dir (hdir : t.node k = some .dir) :
    ∃ b, realDirectoryHasVisibleChildren s t.dir k = .ok b ∧
      (b = true ↔ ∃ n, t.node (k ++ [n]) ≠ none ∧ s.get (k ++ [n]) ≠ some .deleted) := by
  rw [realDirectoryHasVisibleChildren, readDir_dir hdir]
  refine ⟨_, rfl, ?_⟩
  simp only [any_eq_true, decide_eq_true_eq]
  constructor
  · rintro ⟨⟨n, ty⟩, hmem, hget⟩
    obtain ⟨v, hv, -⟩ := mem_children.mp hmem
    exact ⟨n, by rw [hv]; simp, hget⟩
  · rintro ⟨n, hn, hget⟩
    obtain ⟨v, hv⟩ := Option.ne_none_iff_exists'.mp hn
    exact ⟨(n, HostTree.fileType v), mem_children.mpr ⟨v, hv, rfl⟩, hget⟩

variable {entry : OverlayEntry}

namespace Shows

theorem node_ne_none_of_entry (h : Shows t s T) (hget : s.get k = some entry)
    (hentry : entry ≠ .deleted) : T.node k ≠ none := by
  cases h.found hget with
  | file hnode | realFileRef _ hnode | directory hnode => simp [hnode]
  | deleted => exact absurd rfl hentry

/-- **An empty directory** has nothing but tombstones: among the overlay's entries below it and, if
it is the host's, for all the names the host has in it. -/
theorem empty_iff (h : Shows t s T) : T.Empty k ↔ overlayDirectoryHasChildren s k = false ∧
    (s.get k = none → ∀ n, t.node (k ++ [n]) ≠ none → s.get (k ++ [n]) = some .deleted) := by
  rw [Bool.eq_false_iff, ne_eq, overlayDirectoryHasChildren_iff]
  constructor
  · intro hempty
    constructor
    · rintro ⟨j, entry, ⟨l, rfl⟩, hne, hget, hentry⟩
      have hl : l ≠ [] := fun hl => hne (by rw [hl, append_nil])
      exact h.node_ne_none_of_entry hget hentry (hempty.node_append hl)
    intro _ n hn
    have hnode := hempty n
    cases hget : s.get (k ++ [n]) with
    | none =>
      rw [h.node_of_none hget] at hnode
      exact absurd hnode hn
    | some entry =>
      by_contra hentry
      exact h.node_ne_none_of_entry hget (fun hdel => hentry (by rw [hdel])) hnode
  · rintro ⟨hoverlay, hreal⟩ n
    cases hget : s.get (k ++ [n]) with
    | none =>
      rw [h.node_of_none hget]
      by_contra hn
      by_cases hk : s.get k = none
      · cases hget.symm.trans (hreal hk n hn)
      · exact h.shadow k (k ++ [n]) hk (prefix_append k [n]) hn hget
    | some entry =>
      by_cases hentry : entry = .deleted
      · rw [h.node_of_entry hget, hentry]
        rfl
      · exact absurd ⟨k ++ [n], entry, prefix_append k [n], by simp, hget, hentry⟩ hoverlay

end Shows

theorem rmdirTarget_decides (h : Shows t s T) (hk : k ≠ []) :
    Decides (rmdirTarget (plain t r) s k) (T.IsDir k ∧ T.Empty k) () := by
  rw [rmdirTarget, h.empty_iff]
  cases hget : s.get k with
  | none =>
    have hnode := h.node_of_none hget
    by_cases hparent : T.IsDir k.dropLast
    · simp only [(h.ensureParentExists_decides k).eq_ok hparent, resolveReal_dir, bind]
      by_cases hdir : T.IsDir k
      · have hreal : t.node k = some .dir := hnode.symm.trans hdir
        obtain ⟨b, hb, hbiff⟩ := realDirectoryHasVisibleChildren_dir (s := s) hreal
        simp only [isDir_dir_iff.mpr hreal, Bool.true_eq_false, if_false, hb]
        cases b with
        | true =>
          obtain ⟨n, hn, hdel⟩ := hbiff.mp rfl
          exact .error fun hempty => hdel (hempty.2.2 trivial n hn)
        | false =>
          have hchildren : ∀ n, t.node (k ++ [n]) ≠ none → s.get (k ++ [n]) = some .deleted := by
            intro n hn
            by_contra hdel
            cases hbiff.mpr ⟨n, hn, hdel⟩
          cases hoverlay : overlayDirectoryHasChildren s k with
          | true => exact .error (by simp)
          | false => exact .ok ⟨hdir, rfl, fun _ => hchildren⟩
      · rw [if_pos (Bool.eq_false_iff.mpr fun hreal => hdir (hnode.trans (isDir_dir_iff.mp hreal)))]
        exact .error fun hempty => hdir hempty.1
    · obtain ⟨err, herr⟩ := (h.ensureParentExists_decides k).eq_error hparent
      rw [herr]
      exact .error fun hempty => hparent
        (placeable_of_node hk (by simp [show T.node k = _ from hempty.1])).2
  | some entry =>
    cases h.found hget with
    | directory hnode =>
      cases hoverlay : overlayDirectoryHasChildren s k with
      | true => exact .error (by simp)
      | false => exact .ok ⟨hnode, rfl, by simp⟩
    | file hnode | realFileRef _ hnode | deleted hnode =>
      exact .error (by simp [Tree.IsDir, hnode])

theorem rmdir_reaches (h : Shows t m.state T) :
    Reaches t T (rmdir (plain t r) k m) (· = .none) (T.rmdir k) := by
  rw [rmdir, get_bind_apply, Tree.rmdir]
  by_cases hk : k = []
  · rw [dif_neg fun hroot => hroot.1 hk, lift_bind_of_error (by rw [rejectMountRoot, if_pos hk])]
    exact ⟨_, m, rfl, h⟩
  rw [lift_bind_of_ok (by rw [rejectMountRoot, if_neg hk])]
  have htarget := rmdirTarget_decides (r := r) h hk
  by_cases hempty : T.IsDir k ∧ T.Empty k
  · rw [dif_pos ⟨hk, hempty⟩, lift_bind_of_ok (htarget.eq_ok hempty),
      bind_of_ok insertEntry_plain, pure_apply]
    have hchildren := (h.empty_iff.mp hempty.2).2
    refine ⟨_, _, rfl, rfl, h.update (fun j => get_put) (fun j => node_take j) hk
      (fun _ hdel => nomatch hdel) fun hget n hn => ?_⟩
    rw [hchildren hget n hn]
    simp
  · obtain ⟨err, herr⟩ := htarget.eq_error hempty
    rw [dif_neg fun hroot => hempty hroot.2, lift_bind_of_error herr]
    exact ⟨err, m, rfl, h⟩

/-! ## Making directories -/

/-- The paths from `k` down to `k ++ rest`, without `k` itself. -/
def along (k : Key) : List String → List Key
  | [] => []
  | component :: rest => (k ++ [component]) :: along (k ++ [component]) rest

variable {j : Key}

theorem mem_along {rest : List String} :
    j ∈ along k rest ↔ ∃ p, p ≠ [] ∧ p <+: rest ∧ j = k ++ p := by
  induction rest generalizing k with
  | nil =>
    constructor
    · intro h
      cases h
    · rintro ⟨p, hp, hnil, -⟩
      exact absurd (prefix_nil.mp hnil) hp
  | cons component rest ih =>
    rw [along, mem_cons, ih]
    constructor
    · rintro (rfl | ⟨p, -, hp, rfl⟩)
      · exact ⟨[component], by simp, ⟨rest, rfl⟩, rfl⟩
      · exact ⟨component :: p, by simp, cons_prefix_cons.mpr ⟨rfl, hp⟩, by simp⟩
    rintro ⟨p, hp, hrest, rfl⟩
    rcases prefix_cons_iff.mp hrest with rfl | ⟨q, rfl, hq⟩
    · exact absurd rfl hp
    · by_cases hnil : q = []
      · exact .inl (by rw [hnil])
      · exact .inr ⟨q, hnil, hq, by simp⟩

theorem prefix_iff_mem_along : j <+: k ↔ j = [] ∨ j ∈ along [] k := by
  rw [mem_along]
  constructor
  · intro h
    by_cases hj : j = []
    · exact .inl hj
    · exact .inr ⟨j, hj, h, rfl⟩
  · rintro (rfl | ⟨p, -, hp, rfl⟩)
    · exact nil_prefix
    · exact hp

open Classical in
/-- **The directories that have to be made** are those along the path that are not there yet, unless
there is a file. -/
theorem dirsToCreate_decides (h : Shows t s T) {walk : ComponentWalk} (hlevel : t.Level walk k)
    (rest : List String) :
    Decides (dirsToCreate s t.dir walk k rest) (∀ j ∈ along k rest, T.node j = none ∨ T.IsDir j)
      ((along k rest).filter fun j => ¬ T.IsDir j) := by
  induction rest generalizing walk k with
  | nil => exact .ok fun j hj => by cases hj
  | cons component rest ih =>
    obtain ⟨walk', hstep, hlevel'⟩ := step_dir hlevel component (k ++ [component])
    have hrest := ih hlevel'
    rw [along, forall_mem_cons, dirsToCreate, hstep]
    set p := k ++ [component]
    set free := (T.node p = none ∨ T.IsDir p) ∧ ∀ j ∈ along p rest, T.node j = none ∨ T.IsDir j
    -- a directory is passed over, an empty place is recorded, and a file ends it
    have hdir : T.IsDir p → Decides (dirsToCreate s t.dir walk' p rest) free
        ((p :: along p rest).filter fun j => ¬ T.IsDir j) := by
      intro hd
      rw [filter_cons_of_neg (by simpa using hd)]
      exact hrest.congr ⟨fun hall => ⟨.inr hd, hall⟩, And.right⟩
    have hnew : T.node p = none → Decides (bind (dirsToCreate s t.dir walk' p rest) fun dirs =>
        pure (p :: dirs)) free ((p :: along p rest).filter fun j => ¬ T.IsDir j) := by
      intro hn
      have hnot : ¬ T.IsDir p := by rw [Tree.IsDir, hn]; simp
      rw [filter_cons_of_pos (by simpa using hnot)]
      by_cases hall : ∀ j ∈ along p rest, T.node j = none ∨ T.IsDir j
      · rw [hrest.eq_ok hall]
        exact .ok ⟨.inl hn, hall⟩
      · obtain ⟨err, herr⟩ := hrest.eq_error hall
        rw [herr]
        exact .error fun hboth => hall hboth.2
    have hfile : ∀ {c : Bytes} {err : MountError}, T.node p = some (.file c) →
        Decides (.error err) free ((p :: along p rest).filter fun j => ¬ T.IsDir j) := by
      intro c err hc
      exact .error fun hboth => by simp [free, Tree.IsDir, hc] at hboth
    cases hget : s.get p with
    | none =>
      have hnode := h.node_of_none hget
      rw [HostTree.target]
      cases hk : t.node p with
      | none => exact hnew (hnode.trans hk)
      | some v =>
        cases v with
        | file c => exact hfile (hnode.trans hk)
        | dir => exact hdir (hnode.trans hk)
    | some entry =>
      cases h.found hget with
      | file hnode | realFileRef _ hnode => exact hfile hnode
      | directory hnode => exact hdir hnode
      | deleted hnode => exact hnew hnode

theorem get_putAll_const {keys : List Key} (j : Key) :
    (s.putAll r (keys.map fun k => (k, entry))).get j =
      if j ∈ keys then some entry else s.get j := by
  rw [OverlayState.get, entries_putAll]
  by_cases hj : j ∈ keys
  · rw [if_pos hj]
    refine WeighedMap.lookup_insertAll_of_mem (mem_map.mpr ⟨j, hj, rfl⟩) fun p hp _ => ?_
    obtain ⟨_, -, rfl⟩ := mem_map.mp hp
    rfl
  · rw [if_neg hj]
    refine WeighedMap.lookup_insertAll_of_notMem fun p hp heq => hj ?_
    obtain ⟨_, hmem, rfl⟩ := mem_map.mp hp
    exact heq ▸ hmem

/-- **Directories are made** where there are none. -/
theorem Shows.putDirs (h : Shows t s T) {dirs : List Key} (hdirs : ∀ j ∈ dirs, ¬ T.IsDir j)
    {T' : Tree String Bytes} (hT' : ∀ j, T'.node j = if j ∈ dirs then some .dir else T.node j) :
    Shows t (s.putAll r (dirs.map fun k => (k, .directory))) T' := by
  refine h.overwrite (fun j hj => ?_) (fun j hj => ?_)
    (fun hmem => hdirs [] hmem T.root) fun i j hi hij hj hget => ?_
  · rw [get_putAll_const, hT', if_neg hj, if_neg hj]
    exact ⟨rfl, rfl⟩
  · exact ⟨.directory, by rw [get_putAll_const, if_pos hj], by rw [hT', if_pos hj]; rfl, nofun⟩
  · by_contra hmem
    have hne : j ≠ i := fun heq => hmem (heq ▸ hi)
    by_cases hnone : s.get i = none
    · exact h.shadow_of_children (h.children_of_not_isDir (hdirs i hi) hnone) hij hne hj hget
    · exact h.shadow i j hnone hij hj hget

theorem createDirectories_plain {dirs : List Key} : createDirectories (plain t r) dirs m =
    .ok .none { m with state := m.state.putAll r (dirs.map fun k => (k, .directory)) } := by
  rw [createDirectories, get_bind_apply, lift_bind_of_ok checkWriteLimit_plain,
    lift_bind_of_ok checkReplacements_plain, bind_of_ok (forM_insertUnchecked_apply dirs m),
    bind_of_ok commitWriteBytes_plain, pure_apply]

/-- What is in the way, as the tree has it. -/
theorem mkdirTarget_plain (h : Shows t s T) (hbelow : s.get k = none → t.belowFile k = false) :
    mkdirTarget (plain t r) s k = .ok ((T.node k).map fun v => decide (v = .dir)) := by
  rw [mkdirTarget]
  cases hget : s.get k with
  | none =>
    rw [h.node_of_none hget]
    simp only [resolveReal_dir, classifyTarget_dir (hbelow hget), bind, HostTree.target]
    cases t.node k with
    | none => rfl
    | some v => cases v <;> rfl
  | some entry =>
    cases h.found hget <;> next hnode =>
      rw [hnode]
      rfl

variable {existOk : Bool} {parents : Bool}

theorem mkdir_eq_none_of_file {c : Bytes} (hjk : j <+: k)
    (hj : T.node j = some (.file c)) : T.mkdir k parents existOk = none := by
  have hall : ¬ ∀ i, i <+: k → T.node i = none ∨ T.IsDir i := fun hall => by
    have := hall j hjk
    simp [Tree.IsDir, hj] at this
  have hk : ¬ T.IsDir k := fun hdir => not_isDir_of_file hj (hdir.of_prefix hjk)
  have hplace : ¬ (T.Placeable k ∧ T.node k = none) := fun hplace => by
    by_cases hne : j = k
    · rw [hne, hplace.2] at hj
      cases hj
    · exact Shows.not_isDir_dropLast hjk hne (not_isDir_of_file hj) hplace.1.2
  rw [Tree.mkdir, if_neg hk, if_neg hall, dif_neg hplace]
  cases parents <;> rfl

open Classical in
/-- Making a directory with its parents, where there is nothing. -/
theorem mkdirParents_reaches (h : Shows t m.state T) (hnode : T.node k = none) :
    Reaches t T ((lift (overlayDirsToCreate m.state t.dir k) >>= fun dirs =>
      createDirectories (plain t r) dirs) m) (· = .none) (T.mkdir k true existOk) := by
  have hdirs : Decides (overlayDirsToCreate m.state t.dir k) _ _ :=
    dirsToCreate_decides h level_new k
  have hk : ¬ T.IsDir k := by rw [Tree.IsDir, hnode]; simp
  have hiff : (∀ j ∈ along [] k, T.node j = none ∨ T.IsDir j) ↔
      ∀ j, j <+: k → T.node j = none ∨ T.IsDir j := by
    constructor
    · intro hall j hj
      rcases prefix_iff_mem_along.mp hj with rfl | hj
      · exact .inr T.root
      · exact hall j hj
    · exact fun hall j hj => hall j (prefix_iff_mem_along.mpr (.inr hj))
  rw [Tree.mkdir, if_neg hk, if_pos rfl]
  by_cases hall : ∀ j, j <+: k → T.node j = none ∨ T.IsDir j
  · rw [if_pos hall, lift_bind_of_ok (hdirs.eq_ok (hiff.mpr hall)), createDirectories_plain]
    refine ⟨_, _, rfl, rfl, h.putDirs (fun j hj => by simpa using (mem_filter.mp hj).2) fun j => ?_⟩
    rw [node_makeDirs]
    by_cases hj : j ∈ (along [] k).filter fun j => ¬ T.IsDir j
    · rw [if_pos hj, if_pos (prefix_iff_mem_along.mpr (.inr (mem_filter.mp hj).1))]
    rw [if_neg hj]
    by_cases hsub : j <+: k
    · rw [if_pos hsub]
      by_contra hdir
      rcases prefix_iff_mem_along.mp hsub with rfl | hmem
      · exact hdir T.root.symm
      · exact hj (mem_filter.mpr ⟨hmem, decide_eq_true fun hd : T.IsDir j => hdir hd.symm⟩)
    · rw [if_neg hsub]
  · obtain ⟨err, herr⟩ := hdirs.eq_error (mt hiff.mp hall)
    rw [if_neg hall, lift_bind_of_error herr]
    exact ⟨err, m, rfl, h⟩

/-- Making a single directory, where there is nothing. -/
theorem mkdirSingle_reaches (h : Shows t m.state T) (hnode : T.node k = none) :
    Reaches t T ((lift (ensureParentExists m.state t.dir k) >>= fun _ =>
      createDirectories (plain t r) [k]) m) (· = .none) (T.mkdir k false existOk) := by
  have hparent := h.ensureParentExists_decides k
  have hk : ¬ T.IsDir k := by rw [Tree.IsDir, hnode]; simp
  rw [Tree.mkdir, if_neg hk, if_neg (by simp)]
  by_cases hdir : T.IsDir k.dropLast
  · rw [dif_pos ⟨⟨ne_nil_of_not_isDir hk, hdir⟩, hnode⟩, lift_bind_of_ok (hparent.eq_ok hdir),
      createDirectories_plain]
    refine ⟨_, _, rfl, rfl, h.putDirs (fun j hj => ?_) fun j => ?_⟩
    · rw [mem_singleton.mp hj]
      exact hk
    · rw [node_put]
      simp only [mem_singleton]
  · obtain ⟨err, herr⟩ := hparent.eq_error hdir
    rw [dif_neg fun hplace => hdir hplace.1.2, lift_bind_of_error herr]
    exact ⟨err, m, rfl, h⟩

/-- **Making a directory.** -/
theorem mkdir_reaches (h : Shows t m.state T) (hburied : ¬ Buried t m.state k) :
    Reaches t T (mkdir (plain t r) k parents existOk m) (· = .none)
      (T.mkdir k parents existOk) := by
  rw [mkdir, get_bind_apply]
  by_cases hbelow : m.state.get k = none → t.belowFile k = false
  · rw [lift_bind_of_ok (mkdirTarget_plain h hbelow)]
    cases hnode : T.node k with
    | none =>
      cases parents with
      | true => exact mkdirParents_reaches h hnode
      | false => exact mkdirSingle_reaches h hnode
    | some v =>
      cases v with
      | file c =>
        rw [mkdir_eq_none_of_file prefix_rfl hnode]
        exact ⟨_, m, rfl, h⟩
      | dir =>
        rw [Tree.mkdir, if_pos (show T.IsDir k from hnode)]
        cases existOk with
        | true => exact ⟨_, m, rfl, rfl, h⟩
        | false => exact ⟨_, m, rfl, h⟩
  · rw [Classical.not_imp, Bool.not_eq_false] at hbelow
    obtain ⟨j, c, hjk, -, hj⟩ := h.file_above hburied hbelow.1 hbelow.2
    have herr : mkdirTarget (plain t r) m.state k =
        .error (.io (HostTree.osError .notADirectory) k) := by
      rw [mkdirTarget, hbelow.1]
      simp only [resolveReal_dir, classifyTarget_belowFile hbelow.2, bind, Except.bind]
    rw [mkdir_eq_none_of_file hjk hj, lift_bind_of_error herr]
    exact ⟨_, m, rfl, h⟩

/-! ## Budgets -/

/-- The computation gives the answer, or fails, which it does under a limit only. -/
def Grants {α : Type} (limited : Prop) (x : Except MountError α) (a : α) : Prop :=
  x = .ok a ∨ limited ∧ ∃ err, x = .error err

namespace Grants

variable {α β : Type} {limited : Prop} {x : Except MountError α} {f : α → Except MountError β}
  {a : α} {b : β}

theorem ok : Grants limited (.ok a : Except MountError α) a := .inl rfl

theorem guard {c : Prop} [Decidable c] {err : MountError} (h : c → limited) :
    Grants limited (if c then .error err else .ok a) a := by
  split_ifs with hc
  · exact .inr ⟨h hc, err, rfl⟩
  · exact .ok

section

variable (hx : Grants limited x a)

include hx

theorem bind (hf : Grants limited (f a) b) : Grants limited (x >>= f) b := by
  rcases hx with rfl | ⟨hlimited, err, rfl⟩
  · exact hf
  · exact .inr ⟨hlimited, err, rfl⟩

theorem mono {limited' : Prop} (h : limited → limited') :
    Grants limited' x a := hx.imp id fun ⟨hlimited, herr⟩ => ⟨h hlimited, herr⟩

theorem eq {a' : α} (h : x = .ok a') : a' = a := by
  rcases hx with hx | ⟨-, err, hx⟩
  · exact Except.ok.inj (h.symm.trans hx)
  · exact nomatch h.symm.trans hx

theorem eq_ok (h : ¬ limited) : x = .ok a := hx.resolve_right fun hright => h hright.1

end

end Grants

variable (budget : MemoryBudget)

def MemoryBudget.Limited : Prop := budget.available ≠ none

theorem MemoryBudget.check_grants (bytes : Nat) :
    Grants budget.Limited (budget.check bytes) () := by
  exact .guard fun h hnone => by
    rw [hnone] at h
    cases h

theorem MemoryBudget.shrink_grants (bytes : Nat) :
    ∃ rest, Grants budget.Limited (budget.shrink bytes) rest ∧ (rest.Limited → budget.Limited) := by
  refine ⟨{ budget with available := budget.available.map (· - bytes) }, ?_, fun h hnone => h ?_⟩
  · exact .guard fun h hnone => by
      rw [hnone] at h
      cases h
  · rw [hnone, Option.map_none]

/-! ## Listing -/

variable {n : String}

theorem mem_overlayChildren : (n, entry) ∈ overlayChildren s k ↔ s.get (k ++ [n]) = some entry := by
  simp only [overlayChildren, mem_filterMap]
  constructor
  · rintro ⟨⟨j, e⟩, hp, hmatch⟩
    obtain ⟨hget, ⟨l, hl⟩, -⟩ := mem_prefixIter.mp hp
    subst hl
    rw [drop_left] at hmatch
    split at hmatch
    · cases hmatch
      exact hget
    · cases hmatch
  · intro hget
    exact ⟨(k ++ [n], entry), mem_prefixIter.mpr ⟨hget, prefix_append k [n], by simp⟩, by simp⟩

theorem mem_seen : n ∈ (overlayChildren s k).map Prod.fst ↔ s.get (k ++ [n]) ≠ none := by
  rw [mem_map, Option.ne_none_iff_exists']
  constructor
  · rintro ⟨⟨_, entry⟩, hmem, rfl⟩
    exact ⟨entry, mem_overlayChildren.mp hmem⟩
  · rintro ⟨entry, hget⟩
    exact ⟨(n, entry), mem_overlayChildren.mpr hget, rfl⟩

theorem ne_symlink_of_mem_children {p : String × FileType} (h : p ∈ t.children k) :
    p.2 ≠ .symlink := by
  obtain ⟨v, -, hv⟩ := mem_children.mp h
  rw [hv]
  cases v <;> simp [HostTree.fileType]

theorem listOverlay_grants (vpath : String) (children : List (String × OverlayEntry))
    (usage : Nat) : ∃ usage', Grants budget.Limited (listOverlay k vpath budget children usage)
      ((children.filter fun p => p.2 ≠ .deleted).map fun p => k ++ [p.1], usage') := by
  induction children generalizing usage with
  | nil => exact ⟨usage, .ok⟩
  | cons p children ih =>
    by_cases hp : p.2 = .deleted
    · obtain ⟨usage', hrest⟩ := ih (usage + p.1.utf8ByteSize * 2 + listingEntryMemoryUsage)
      rw [filter_cons_of_neg (by simpa using hp)]
      refine ⟨usage', (budget.check_grants _).bind ?_⟩
      rwa [if_pos hp]
    obtain ⟨usage', hrest⟩ := ih (usage + p.1.utf8ByteSize * 2 + listingEntryMemoryUsage +
      (formatChildPath vpath p.1).utf8ByteSize + listingEntryMemoryUsage)
    rw [filter_cons_of_pos (by simpa using hp)]
    refine ⟨usage', (budget.check_grants _).bind ?_⟩
    rw [if_neg hp]
    exact (budget.check_grants _).bind (hrest.bind .ok)

/-- The host's part, of a host without symbolic links. -/
def hostInfos (listing : List (String × FileType)) : List (String × EntryInfo) :=
  listing.map fun p => (p.1, ⟨p.2 = .dir, p.2 = .file, false⟩)

theorem visibleEntries_grants {listing : List (String × FileType)}
    (h : ∀ p ∈ listing, p.2 ≠ .symlink) (usage : Nat) :
    Grants budget.Limited (visibleEntries t.dir k budget listing usage) (hostInfos listing) := by
  induction listing generalizing usage with
  | nil => exact .ok
  | cons p listing ih =>
    have hinfo : hostEntryInfo t.dir k p.1 p.2 = some ⟨p.2 = .dir, p.2 = .file, false⟩ :=
      if_neg (h p mem_cons_self)
    rw [visibleEntries, hinfo]
    exact (budget.check_grants _).bind ((ih (fun q hq => h q (mem_cons_of_mem _ hq)) _).bind .ok)

theorem listHost_grants (vpath : String) (seen : List String) (names : List (String × EntryInfo))
    (usage : Nat) : Grants budget.Limited (listHost k vpath budget seen names usage)
      (((names.map Prod.fst).filter fun n => n ∉ seen).map fun n => k ++ [n]) := by
  induction names generalizing usage with
  | nil => exact .ok
  | cons p names ih =>
    rw [listHost, map_cons]
    by_cases hn : p.1 ∈ seen
    · rw [if_pos hn, filter_cons_of_neg (by simpa using hn)]
      exact ih usage
    · rw [if_neg hn, filter_cons_of_pos (by simpa using hn)]
      exact (budget.check_grants _).bind ((ih _).bind .ok)

theorem availableMemory_grants (ctx : Context) (s : OverlayState) :
    ∃ budget, Grants (ctx.memoryUsageLimit ≠ none) (availableMemory ctx s) budget ∧
      (budget.Limited → ctx.memoryUsageLimit ≠ none) := by
  refine ⟨⟨ctx.memoryUsageLimit.map (· - s.memoryUsage), ctx.memoryUsageLimit⟩, ?_,
    fun h hnone => h ?_⟩
  · exact .guard fun hexceeded hnone => by
      rw [hnone] at hexceeded
      cases hexceeded
  · rw [hnone, Option.map_none]

/-- Whether the host has a part in the listing, and that there is a directory to list. -/
theorem realDirToMerge_decides (h : Shows t s T) :
    Decides (realDirToMerge s t.dir k) (T.IsDir k) (s.get k).isNone := by
  rw [realDirToMerge]
  cases hget : s.get k with
  | none =>
    have hnode := h.node_of_none hget
    simp only [resolveReal_dir, bind]
    by_cases hdir : t.node k = some .dir
    · rw [if_pos (isDir_dir_iff.mpr hdir)]
      exact .ok (hnode.trans hdir)
    rw [if_neg (mt isDir_dir_iff.mp hdir)]
    have hnot : ¬ T.IsDir k := by rwa [Tree.IsDir, hnode]
    refine ⟨fun hd => absurd hd hnot, fun _ => ?_⟩
    split
    · exact ⟨_, rfl⟩
    · exact ⟨_, rfl⟩
  | some entry =>
    cases h.found hget with
    | directory hnode => exact .ok hnode
    | file hnode | realFileRef _ hnode | deleted hnode =>
      exact .error (by simp [Tree.IsDir, hnode])

/-- The paths of a listing, from both sides. -/
def listing (t : HostTree) (s : OverlayState) (k : Key) : List Key :=
  ((overlayChildren s k).filter fun p => p.2 ≠ .deleted).map (fun p => k ++ [p.1]) ++
    if (s.get k).isNone then
      (((t.children k).map Prod.fst).filter fun n =>
        n ∉ (overlayChildren s k).map Prod.fst).map fun n => k ++ [n]
    else []

theorem map_fst_hostInfos (listing : List (String × FileType)) :
    (hostInfos listing).map Prod.fst = listing.map Prod.fst := by
  rw [hostInfos, map_map]
  rfl

theorem iterdir_grants (vpath : String) (h : Shows t s T) (hctx : ctx.dir = t.dir)
    (hdir : T.IsDir k) :
    Grants (ctx.memoryUsageLimit ≠ none) (iterdir ctx s k vpath) (.list (listing t s k)) := by
  have hmerge := (realDirToMerge_decides h).eq_ok hdir
  obtain ⟨budget, hbudget, hlimited⟩ := availableMemory_grants ctx s
  obtain ⟨usage, hoverlay⟩ := listOverlay_grants budget vpath (overlayChildren s k) 0
  obtain ⟨rest, hshrink, hrest⟩ := budget.shrink_grants usage
  rw [iterdir, hctx, hmerge, listing, ok_bind]
  refine hbudget.bind ((hoverlay.mono hlimited).bind ?_)
  cases hget : s.get k with
  | some entry =>
    simp only [Option.isNone_some, Bool.false_eq_true, if_false, append_nil]
    exact .ok
  | none =>
    have hnode : t.node k = some .dir := (h.node_of_none hget).symm.trans hdir
    have hhalved : rest.halved.Limited → rest.Limited := fun hhalf hnone => hhalf (by
      change rest.available.map (· / 2) = none
      rw [hnone, Option.map_none])
    rw [← map_fst_hostInfos]
    refine (hshrink.mono hlimited).bind (.bind ?_ (.bind
      ((listHost_grants budget vpath _ _ _).mono hlimited) .ok))
    rw [hostListVisibleDirEntries, readDir_dir hnode]
    exact (visibleEntries_grants rest.halved (fun p hp => ne_symlink_of_mem_children hp)
      0).mono fun hhalf => hlimited (hrest (hhalved hhalf))

theorem iterdir_decides (vpath : String) (h : Shows t s T) :
    Decides (iterdir (plain t r) s k vpath) (T.IsDir k) (.list (listing t s k)) := by
  refine ⟨fun hdir => (iterdir_grants vpath h rfl hdir).eq_ok fun hlimited => hlimited rfl,
    fun hdir => ?_⟩
  obtain ⟨err, herr⟩ := (realDirToMerge_decides h).eq_error hdir
  exact ⟨err, by rw [iterdir, herr]; rfl⟩

/-- **A listing** has just what is visible in the directory. -/
theorem mem_listing (h : Shows t s T) (j : Key) :
    j ∈ listing t s k ↔ ∃ n, j = k ++ [n] ∧ T.node j ≠ none := by
  rw [listing, mem_append]
  constructor
  · rintro (hmem | hmem)
    · obtain ⟨⟨n, entry⟩, hp, rfl⟩ := mem_map.mp hmem
      obtain ⟨hchild, hentry⟩ := mem_filter.mp hp
      exact ⟨n, rfl, h.node_ne_none_of_entry (mem_overlayChildren.mp hchild)
        (by simpa using hentry)⟩
    split at hmem
    · obtain ⟨n, hn, rfl⟩ := mem_map.mp hmem
      obtain ⟨hname, hnot⟩ := mem_filter.mp hn
      obtain ⟨⟨n', ty⟩, hchild, rfl⟩ := mem_map.mp hname
      obtain ⟨v, hv, -⟩ := mem_children.mp hchild
      have hget : s.get (k ++ [n']) = none := by
        by_contra hget
        exact of_decide_eq_true hnot (mem_seen.mpr hget)
      exact ⟨n', rfl, by rw [h.node_of_none hget, hv]; simp⟩
    · cases hmem
  · rintro ⟨n, rfl, hnode⟩
    cases hget : s.get (k ++ [n]) with
    | some entry =>
      refine .inl (mem_map.mpr ⟨(n, entry), mem_filter.mpr ⟨mem_overlayChildren.mpr hget, ?_⟩, rfl⟩)
      have hentry : entry ≠ .deleted := by
        rintro rfl
        exact hnode (h.node_of_entry hget)
      simpa using hentry
    | none =>
      rw [h.node_of_none hget] at hnode
      obtain ⟨v, hv⟩ := Option.ne_none_iff_exists'.mp hnode
      -- the host's name is hidden neither by an entry of its own nor by one of the directory
      have hk : s.get k = none := by
        by_contra hk
        exact h.shadow k (k ++ [n]) hk (prefix_append k [n]) hnode hget
      rw [hk, Option.isNone_none, if_pos rfl]
      refine .inr (mem_map.mpr ⟨n, mem_filter.mpr ⟨mem_map.mpr
        ⟨(n, HostTree.fileType v), mem_children.mpr ⟨v, hv, rfl⟩, rfl⟩, ?_⟩, rfl⟩)
      exact decide_eq_true (mt mem_seen.mp (not_not.mpr hget))

end Monty.Fs
