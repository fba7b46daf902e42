import Monty.Fs.Plain
import Monty.Fs.Updates

/-!
# The tree an overlay shows

Over a host of files and directories an overlay shows a single tree: at each path what its own entry
says, and what the host has where there is no entry. A lookup consults the entry of the path it is
given and no other, so this is a tree only because of an invariant that no definition states: an
entry hides the host's entry at its path *and everything the host has below it has an entry as well*
(`Shows.shadow`).

`Shows t s T` says that the overlay `s` on the host `t` shows the tree `T`. The checks that the
requests make are decided by `T` alone, with one exception: a path below a regular file of the host
is an error of the host, even if the overlay has put a directory in the place of that file
(`Buried`).
-/

namespace Monty.Fs

open FileTree Fallible HostTree

variable (t : HostTree)

/-- A mount without limits on a host of files and directories. -/
abbrev plain (r : Nat) : Context := ⟨t.dir, r, none, none⟩

/-- What an entry stands for. -/
def entryNode : OverlayEntry → Option (Node Bytes)
  | .file content => some (.file content)
  | .realFileRef relative => t.node relative
  | .directory => some .dir
  | .deleted => none

/-- What the overlay shows at a path. -/
def visible (s : OverlayState) (k : Key) : Option (Node Bytes) :=
  match s.get k with
  | some entry => entryNode t entry
  | none => t.node k

/-- The overlay shows the tree. -/
structure Shows (t : HostTree) (s : OverlayState) (T : Tree String Bytes) : Prop where
  node : ∀ k, visible t s k = T.node k
  /-- A reference is to a file of the host. -/
  refs : ∀ k relative, s.get k = some (.realFileRef relative) →
    ∃ c, t.node relative = some (.file c)
  root : s.get [] = none
  /-- What the host has below an entry has entries. -/
  shadow : ∀ k j, s.get k ≠ none → k <+: j → t.node j ≠ none → s.get j ≠ none

/-- The path has no entry and is below a regular file of the host, but the overlay has put something
else in the place of that file. -/
def Buried (s : OverlayState) (k : Key) : Prop :=
  s.get k = none ∧ ∃ j c, j <+: k ∧ j ≠ k ∧ t.node j = some (.file c) ∧
    (s.get j = some .directory ∨ s.get j = some .deleted)

/-- What the tree has where the overlay has an entry. -/
inductive Found (t : HostTree) (T : Tree String Bytes) (k : Key) : OverlayEntry → Prop
  | file {c : Bytes} : T.node k = some (.file c) → Found t T k (.file c)
  | realFileRef {relative : Key} {c : Bytes} : t.node relative = some (.file c) →
    T.node k = some (.file c) → Found t T k (.realFileRef relative)
  | directory : T.node k = some .dir → Found t T k .directory
  | deleted : T.node k = none → Found t T k .deleted

theorem shows_new : Shows t .new t.toTree where
  node _ := rfl
  refs _ _ h := nomatch h
  root := rfl
  shadow _ _ h := absurd rfl h

namespace Shows

variable {t : HostTree} {s : OverlayState} {T : Tree String Bytes} {k : Key} {c : Bytes}
  {relative : Key} {r : Nat} {entry : OverlayEntry} (h : Shows t s T)

include h in
theorem node_of_entry (hk : s.get k = some entry) : T.node k = entryNode t entry := by
  rw [← h.node, visible, hk]

include h in
theorem node_of_none (hk : s.get k = none) : T.node k = t.node k := by
  rw [← h.node, visible, hk]

include h in
theorem found (hk : s.get k = some entry) : Found t T k entry := by
  have hnode := h.node_of_entry hk
  cases entry with
  | file c => exact .file hnode
  | realFileRef relative =>
    obtain ⟨c, hc⟩ := h.refs k relative hk
    exact .realFileRef hc (hnode.trans hc)
  | directory => exact .directory hnode
  | deleted => exact .deleted hnode

include h in
/-- The path is below a file, not only of the host but of the tree. -/
theorem file_above (hburied : ¬ Buried t s k) (hk : s.get k = none)
    (hbelow : t.belowFile k = true) : ∃ j c, j <+: k ∧ j ≠ k ∧ T.node j = some (.file c) := by
  obtain ⟨j, c, hjk, hne, hc⟩ := belowFile_iff.mp hbelow
  cases hj : s.get j with
  | none => exact ⟨j, c, hjk, hne, (h.node_of_none hj).trans hc⟩
  | some entry =>
    cases h.found hj with
    | file hnode | realFileRef _ hnode => exact ⟨j, _, hjk, hne, hnode⟩
    | directory => exact absurd ⟨hk, j, c, hjk, hne, hc, .inl hj⟩ hburied
    | deleted => exact absurd ⟨hk, j, c, hjk, hne, hc, .inr hj⟩ hburied

theorem not_isDir_dropLast {j : Key} (hjk : j <+: k) (hne : j ≠ k) (hj : ¬ T.IsDir j) :
    ¬ T.IsDir k.dropLast := by
  obtain ⟨l, rfl⟩ := hjk
  have hl : l ≠ [] := fun hl => hne (by rw [hl, List.append_nil])
  rw [List.dropLast_append_of_ne_nil hl]
  exact fun hdir => hj (hdir.of_prefix (List.prefix_append j _))

include h in
theorem belowFile_eq_false (hburied : ¬ Buried t s k) (hk : s.get k = none)
    (hdir : T.IsDir k.dropLast) : t.belowFile k = false := by
  rw [Bool.eq_false_iff]
  intro hbelow
  obtain ⟨j, c, hjk, hne, hj⟩ := h.file_above hburied hk hbelow
  exact not_isDir_dropLast hjk hne (Tree.not_isDir_of_file hj) hdir

/-! ## Changing one entry -/

include h in
/-- Everything the host has below a path has an entry, if that is so for its children. -/
theorem shadow_of_children (hchildren : ∀ n, t.node (k ++ [n]) ≠ none → s.get (k ++ [n]) ≠ none)
    {j : Key} (hkj : k <+: j) (hne : j ≠ k) (hj : t.node j ≠ none) : s.get j ≠ none := by
  obtain ⟨l, rfl⟩ := hkj
  obtain ⟨n, l, rfl⟩ := List.exists_cons_of_ne_nil fun hl : l = [] => hne
    (by rw [hl, List.append_nil])
  have hsplit : k ++ n :: l = (k ++ [n]) ++ l := by simp
  have hchild : t.node (k ++ [n]) ≠ none := by
    by_cases hl : l = []
    · rwa [hl] at hj
    · rw [hsplit] at hj
      have hdir : t.node (k ++ [n]) = some .dir := Tree.isDir_of_append (t := t.toTree) hl hj
      rw [hdir]
      simp
  exact h.shadow _ _ (hchildren n hchild) ⟨l, hsplit.symm⟩ hj

variable {T' : Tree String Bytes} {s' : OverlayState}

include h in
/-- **Entries are changed**, and what the host has below one of them without an entry is among
them. -/
theorem overwrite {D : Key → Prop} (hother : ∀ j, ¬ D j → s'.get j = s.get j ∧ T'.node j = T.node j)
    (hat : ∀ j, D j → ∃ entry, s'.get j = some entry ∧ entryNode t entry = T'.node j ∧
      ∀ relative, entry = .realFileRef relative → ∃ c, t.node relative = some (.file c))
    (hroot : ¬ D []) (hshadow : ∀ i j, D i → i <+: j → t.node j ≠ none → s.get j = none → D j) :
    Shows t s' T' where
  node j := by
    rw [visible]
    by_cases hj : D j
    · obtain ⟨entry, hget, hnode, -⟩ := hat j hj
      rwa [hget]
    · rw [(hother j hj).1, (hother j hj).2]
      exact h.node j
  refs j relative hget := by
    by_cases hj : D j
    · obtain ⟨entry, hget', -, href⟩ := hat j hj
      exact href relative (Option.some.inj (hget'.symm.trans hget))
    · exact h.refs j relative ((hother j hj).1.symm.trans hget)
  root := (hother [] hroot).1.trans h.root
  shadow i j hi hij hnode hget := by
    by_cases hj : D j
    · obtain ⟨entry, hget', -⟩ := hat j hj
      cases hget.symm.trans hget'
    rw [(hother j hj).1] at hget
    by_cases hdi : D i
    · exact hj (hshadow i j hdi hij hnode hget)
    · rw [(hother i hdi).1] at hi
      exact h.shadow i j hi hij hnode hget

include h in
/-- **One entry is changed**, where the host's children have entries. -/
theorem update (hs' : ∀ j, s'.get j = if j = k then some entry else s.get j)
    (hT' : ∀ j, T'.node j = if j = k then entryNode t entry else T.node j) (hk : k ≠ [])
    (hentry : ∀ relative, entry = .realFileRef relative → ∃ c, t.node relative = some (.file c))
    (hchildren : s.get k = none → ∀ n, t.node (k ++ [n]) ≠ none → s.get (k ++ [n]) ≠ none) :
    Shows t s' T' := by
  refine h.overwrite (D := (· = k)) (fun j hj => ?_) ?_ hk.symm ?_
  · rw [hs', hT', if_neg hj, if_neg hj]
    exact ⟨rfl, rfl⟩
  · rintro _ rfl
    exact ⟨entry, by rw [hs', if_pos rfl], by rw [hT', if_pos rfl], hentry⟩
  · rintro i j rfl hij hj hget
    by_contra hne
    by_cases hnone : s.get i = none
    · exact h.shadow_of_children (hchildren hnone) hij hne hj hget
    · exact h.shadow i j hnone hij hj hget

include h in
/-- Only what is at the paths matters. -/
theorem congr (hT' : ∀ j, T'.node j = T.node j) : Shows t s T' :=
  ⟨fun j => (h.node j).trans (hT' j).symm, h.refs, h.root, h.shadow⟩

include h in
/-- Where the tree has no directory, neither has the host, unless there is an entry. -/
theorem children_of_not_isDir (hdir : ¬ T.IsDir k) (hk : s.get k = none) (n : String)
    (hn : t.node (k ++ [n]) ≠ none) : s.get (k ++ [n]) ≠ none := by
  rw [Tree.IsDir, h.node_of_none hk] at hdir
  exact absurd (t.parent k n hn) hdir

/-! ## Checks -/

include h in
theorem ensureDirectories_decides {path : Key} {walk : ComponentWalk}
    (hlevel : t.Level walk k) (hk : T.IsDir k) (rest : List String) :
    Decides (ensureDirectories s t.dir path walk k rest) (T.IsDir (k ++ rest)) () := by
  induction rest generalizing walk k with
  | nil => exact .ok (by rwa [List.append_nil])
  | cons component rest ih =>
    obtain ⟨walk', hstep, hlevel'⟩ := step_dir hlevel component path
    have hsplit : k ++ component :: rest = (k ++ [component]) ++ rest := by simp
    -- a component that is no directory ends the walk, and nothing is below it
    have hstop : ¬ T.IsDir (k ++ [component]) → ¬ T.IsDir (k ++ component :: rest) :=
      fun hnot hdir => hnot (hdir.of_prefix ⟨rest, hsplit.symm⟩)
    rw [ensureDirectories, hstep]
    cases hget : s.get (k ++ [component]) with
    | none =>
      have hnode := h.node_of_none hget
      rw [HostTree.target]
      rcases htarget : t.node (k ++ [component]) with _ | _ | _
      case some.dir =>
        rw [hsplit]
        exact ih hlevel' (hnode.trans htarget)
      all_goals exact .error (hstop (by rw [Tree.IsDir, hnode, htarget]; simp))
    | some entry =>
      cases h.found hget with
      | file hnode | realFileRef _ hnode | deleted hnode =>
        exact .error (hstop (by rw [Tree.IsDir, hnode]; simp))
      | directory hnode =>
        rw [hsplit]
        exact ih hlevel' hnode

include h in
/-- **The parent is checked in the tree.** -/
theorem ensureParentExists_decides (k : Key) :
    Decides (ensureParentExists s t.dir k) (T.IsDir k.dropLast) () :=
  h.ensureDirectories_decides level_new T.root k.dropLast

include h in
theorem rejectDirectoryTarget_decides (hbelow : s.get k = none → t.belowFile k = false) :
    Decides (rejectDirectoryTarget s t.dir k) (¬ T.IsDir k) () := by
  rw [rejectDirectoryTarget]
  cases hget : s.get k with
  | none =>
    simp only [resolveReal_dir, classifyTarget_dir (hbelow hget), bind, Except.bind,
      HostTree.target]
    rw [Tree.IsDir, h.node_of_none hget]
    cases t.node k with
    | none => exact .ok (by simp)
    | some v =>
      cases v with
      | file c => exact .ok (by simp)
      | dir => exact .error (by simp)
  | some entry =>
    rw [Tree.IsDir]
    cases h.found hget with
    | file hnode | realFileRef _ hnode | deleted hnode => exact .ok (by simp [hnode])
    | directory hnode => exact .error (by simp [hnode])

end Shows

end Monty.Fs
