import Mathlib.Data.List.Infix

/-!
# File trees

A tree of files and directories as its paths see it: a function from paths to what is there. A path
is the list of names from the root down. The root is a directory, and what has a name stands in a
directory; a `Tree` carries both, so there is no tree with a file below a file.

The operations are those of a file system on a single tree with nothing but files and directories in
it. Each is a partial function, undefined where the operation fails. `modify` writes a file, given
what was in it: it needs a directory to put the file in, and no directory in its place.
-/

namespace FileTree

open Classical List Function

variable {N C : Type}

/-- What a path can name. -/
inductive Node (C : Type)
  | file (content : C)
  | dir
  deriving DecidableEq

/-- A tree of files and directories. -/
@[ext] structure Tree (N C : Type) where
  /-- What is at a path, if anything. -/
  node : List N → Option (Node C)
  root : node [] = some .dir
  parent : ∀ k n, node (k ++ [n]) ≠ none → node k = some .dir

namespace Tree

variable (t : Tree N C) {k : List N}

/-- The path is a directory. -/
def IsDir (k : List N) : Prop := t.node k = some .dir

/-- The path has a name, and the directory it is in exists. -/
def Placeable (k : List N) : Prop := k ≠ [] ∧ t.IsDir k.dropLast

/-- The directory has nothing in it. -/
def Empty (k : List N) : Prop := ∀ n, t.node (k ++ [n]) = none

variable {t} {l : List N}

/-- Whatever is above something is a directory. -/
theorem isDir_of_append (hl : l ≠ []) (h : t.node (k ++ l) ≠ none) : t.IsDir k := by
  induction l using List.reverseRecOn with
  | nil => exact absurd rfl hl
  | append_singleton l n ih =>
    have hdir : t.node (k ++ l) = some .dir := t.parent _ n (by rwa [append_assoc])
    by_cases hnil : l = []
    · subst hnil
      rwa [append_nil] at hdir
    · exact ih hnil (by simp [hdir])

theorem IsDir.of_prefix {j : List N} (h : t.IsDir k) (hjk : j <+: k) : t.IsDir j := by
  obtain ⟨l, rfl⟩ := hjk
  by_cases hl : l = []
  · rwa [hl, append_nil] at h
  · exact isDir_of_append hl (by simp [show t.node _ = _ from h])

/-- Nothing is below what is not a directory. -/
theorem node_append_eq_none (hl : l ≠ []) (hk : ¬ t.IsDir k) : t.node (k ++ l) = none := by
  by_contra h
  exact hk (isDir_of_append hl h)

/-- Nothing is below an empty directory. -/
theorem Empty.node_append (hempty : t.Empty k) (hl : l ≠ []) : t.node (k ++ l) = none := by
  obtain ⟨n, l, rfl⟩ := exists_cons_of_ne_nil hl
  by_cases hnil : l = []
  · subst hnil
    exact hempty n
  · rw [show k ++ n :: l = (k ++ [n]) ++ l by simp]
    refine node_append_eq_none hnil fun hdir => ?_
    rw [IsDir, hempty n] at hdir
    cases hdir

theorem placeable_of_node (hk : k ≠ []) (h : t.node k ≠ none) : t.Placeable k := by
  refine ⟨hk, t.parent k.dropLast (k.getLast hk) ?_⟩
  rwa [dropLast_append_getLast]

theorem ne_nil_of_not_isDir (h : ¬ t.IsDir k) : k ≠ [] := fun hk => h (hk ▸ t.root)

theorem not_isDir_of_file {c : C} (h : t.node k = some (.file c)) : ¬ t.IsDir k := by
  rw [IsDir, h]
  simp

theorem placeable_of_file {c : C} (h : t.node k = some (.file c)) : t.Placeable k :=
  placeable_of_node (ne_nil_of_not_isDir (not_isDir_of_file h)) (by simp [h])

/-! ## Changing one entry -/

/-- Puts something at a path. A file does not go where a directory is. -/
noncomputable def put (t : Tree N C) (k : List N) (v : Node C) (hplace : t.Placeable k)
    (hv : v = .dir ∨ ¬ t.IsDir k) : Tree N C where
  node := Function.update t.node k (some v)
  root := by rw [update_of_ne hplace.1.symm, t.root]
  parent j n hj := by
    by_cases hjk : j = k
    · subst hjk
      rw [update_of_ne (by simp)] at hj
      rcases hv with rfl | hv
      · rw [update_self]
      · exact absurd (t.parent j n hj) hv
    rw [update_of_ne hjk]
    by_cases hk : j ++ [n] = k
    · have hdir := hplace.2
      rwa [← hk, dropLast_concat] at hdir
    · rw [update_of_ne hk] at hj
      exact t.parent j n hj

/-- Takes away what is at a path, if there is nothing below it. -/
noncomputable def take (t : Tree N C) (k : List N) (hk : k ≠ []) (hempty : t.Empty k) :
    Tree N C where
  node := Function.update t.node k none
  root := by rw [update_of_ne hk.symm, t.root]
  parent j n hj := by
    have hne : j ++ [n] ≠ k := by
      rintro rfl
      rw [update_self] at hj
      exact hj rfl
    rw [update_of_ne hne] at hj
    by_cases hjk : j = k
    · subst hjk
      exact absurd (hempty n) hj
    · rw [update_of_ne hjk]
      exact t.parent j n hj

theorem node_put {v : Node C} {hplace : t.Placeable k} {hv : v = .dir ∨ ¬ t.IsDir k} (j : List N)
    [Decidable (j = k)] : (t.put k v hplace hv).node j = if j = k then some v else t.node j := by
  refine (update_apply t.node k _ j).trans ?_
  congr

theorem node_take {hk : k ≠ []} {hempty : t.Empty k} (j : List N) [Decidable (j = k)] :
    (t.take k hk hempty).node j = if j = k then none else t.node j := by
  refine (update_apply t.node k _ j).trans ?_
  congr

/-! ## Changing many entries -/

/-- Makes directories of a path and of everything above it. -/
noncomputable def makeDirs (t : Tree N C) (k : List N) : Tree N C where
  node j := if j <+: k then some .dir else t.node j
  root := if_pos nil_prefix
  parent j n hj := by
    by_cases hjk : j <+: k
    · exact if_pos hjk
    · have hne : ¬ j ++ [n] <+: k := fun h => hjk ((prefix_append j [n]).trans h)
      rw [if_neg hne] at hj
      rw [if_neg hjk]
      exact t.parent j n hj

/-- Moves what is at a path, with everything below it. Whatever was at the other path is gone. -/
noncomputable def move (t : Tree N C) (src dst : List N) (hsrc : src ≠ [])
    (hdst : t.Placeable dst) : Tree N C where
  node k :=
    if src <+: k then none
    else if dst <+: k then t.node (src ++ k.drop dst.length)
    else t.node k
  root := by
    rw [if_neg fun h => hsrc (prefix_nil.mp h), if_neg fun h => hdst.1 (prefix_nil.mp h), t.root]
  parent j n hj := by
    by_cases hs : src <+: j ++ [n]
    · rw [if_pos hs] at hj
      exact absurd rfl hj
    rw [if_neg hs] at hj
    rw [if_neg fun h => hs (h.trans (prefix_append j [n]))]
    by_cases hd : dst <+: j ++ [n]
    · rw [if_pos hd] at hj
      rcases prefix_concat_iff.mp hd with rfl | hd
      · -- the entry moved, into the directory that was to take it
        rw [if_neg fun h => absurd h.length_le (by simp)]
        have hdir := hdst.2
        rwa [dropLast_concat] at hdir
      · rw [if_pos hd]
        refine t.parent _ n ?_
        rwa [append_assoc, ← drop_append_of_le_length hd.length_le]
    · rw [if_neg hd] at hj
      rw [if_neg fun h => hd (h.trans (prefix_append j [n]))]
      exact t.parent j n hj

theorem node_makeDirs (j : List N) [Decidable (j <+: k)] :
    (t.makeDirs k).node j = if j <+: k then some .dir else t.node j := by
  by_cases hj : j <+: k
  · rw [if_pos hj]
    exact if_pos hj
  · rw [if_neg hj]
    exact if_neg hj

section

variable {src dst : List N} {hsrc : src ≠ []} {hdst : t.Placeable dst} {j : List N}

theorem node_move_src (hj : src <+: j) : (t.move src dst hsrc hdst).node j = none := if_pos hj

theorem node_move_dst (hj : ¬ src <+: dst ++ l) :
    (t.move src dst hsrc hdst).node (dst ++ l) = t.node (src ++ l) := by
  refine (if_neg hj).trans ((if_pos (prefix_append dst l)).trans ?_)
  rw [drop_left]

theorem node_move_of_not (hs : ¬ src <+: j) (hd : ¬ dst <+: j) :
    (t.move src dst hsrc hdst).node j = t.node j :=
  (if_neg hs).trans (if_neg hd)

end

/-! ## The operations -/

def content? : Option (Node C) → Option C
  | some (.file c) => some c
  | _ => none

/-- Writes a file; `f` gives its new content from the old one, if there was a file. -/
noncomputable def modify (t : Tree N C) (k : List N) (f : Option C → C) : Option (Tree N C) :=
  if h : t.Placeable k ∧ ¬ t.IsDir k then
    some (t.put k (.file (f (content? (t.node k)))) h.1 (.inr h.2))
  else none

/-- Makes a file where there is nothing. -/
noncomputable def create (t : Tree N C) (k : List N) (c : C) : Option (Tree N C) :=
  if h : t.Placeable k ∧ t.node k = none then
    some (t.put k (.file c) h.1 (.inr (by rw [IsDir, h.2]; simp)))
  else none

/-- Makes a directory. With `parents` the directories above it are made as well, with `existOk` it
may be there already. -/
noncomputable def mkdir (t : Tree N C) (k : List N) (parents existOk : Bool) : Option (Tree N C) :=
  if t.IsDir k then if existOk then some t else none
  else if parents then
    if ∀ j, j <+: k → t.node j = none ∨ t.IsDir j then some (t.makeDirs k) else none
  else if h : t.Placeable k ∧ t.node k = none then some (t.put k .dir h.1 (.inl rfl))
  else none

/-- Removes a file. -/
noncomputable def unlink (t : Tree N C) (k : List N) : Option (Tree N C) :=
  if h : ∃ c, t.node k = some (.file c) then
    some (t.take k (fun hk => by
        obtain ⟨c, hc⟩ := h
        rw [hk, t.root] at hc
        cases hc)
      (fun n => node_append_eq_none (cons_ne_nil n []) fun hdir => by
        obtain ⟨c, hc⟩ := h
        rw [IsDir, hc] at hdir
        cases hdir))
  else none

/-- Removes an empty directory. The root stays. -/
noncomputable def rmdir (t : Tree N C) (k : List N) : Option (Tree N C) :=
  if h : k ≠ [] ∧ t.IsDir k ∧ t.Empty k then some (t.take k h.1 h.2.2) else none

/-- What `rename` asks for: something to move, a place to put it, and nothing in the way but a file
for a file or an empty directory for a directory, not inside what is moved. -/
structure Movable (t : Tree N C) (src dst : List N) : Prop where
  src_ne : src ≠ []
  exists_src : t.node src ≠ none
  placeable : t.Placeable dst
  file : ¬ t.IsDir src → ¬ t.IsDir dst
  dir : t.IsDir src → (t.node dst = none ∨ t.IsDir dst ∧ t.Empty dst) ∧ ¬ src <+: dst

/-- Moves an entry to another path. -/
noncomputable def rename (t : Tree N C) (src dst : List N) : Option (Tree N C) :=
  if h : t.Movable src dst then some (t.move src dst h.src_ne h.placeable) else none

end Tree

end FileTree
