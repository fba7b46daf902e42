import Monty.Fs.Subtree

/-!
# Renaming on a plain tree

A rename is refused just when the tree does not allow it, and committing its plan moves the whole
subtree. The plan leaves a tombstone for everything it moves, so that nothing of the host shows
through at the source, and it takes the overlay's own tombstones along, so that nothing moved comes
back to life at the destination (`Moved`).
-/

namespace Monty.Fs

open FileTree FileTree.Tree Fallible OverlayState HostTree List RenamePlan WeighedMap

variable {t : HostTree} {T : Tree String Bytes} {s : OverlayState} {m : Mount} {src dst : Key}
  {r : Nat}

/-! ## Refusals -/

theorem rejectMountRoot_decides (k : Key) : Decides (rejectMountRoot k) (k ≠ []) () := by
  rw [rejectMountRoot]
  by_cases hk : k = []
  · rw [if_pos hk]
    exact .error (not_not.mpr hk)
  · rw [if_neg hk]
    exact .ok hk

theorem resolveDestination_plain : resolveDestination (plain t r) s dst = .ok () := by
  rw [resolveDestination]
  split
  · exact resolveReal_dir
  · rfl

variable (h : Shows t s T)

include h in
open Classical in
theorem sourceIsDir_decides :
    Decides (sourceIsDir (plain t r) s src) (s.get src ≠ some .deleted) (decide (T.IsDir src)) := by
  rw [sourceIsDir]
  cases hget : s.get src with
  | none =>
    have hdir : t.dir.isDir src = decide (T.IsDir src) := by
      rw [Bool.eq_iff_iff, isDir_dir_iff, decide_eq_true_iff, Tree.IsDir, h.node_of_none hget]
    simp only [resolveReal_dir, bind, Except.bind, hdir]
    exact .ok (by simp)
  | some entry =>
    cases h.found hget with
    | file hnode | realFileRef _ hnode =>
      have hdir : decide (T.IsDir src) = false := by simp [Tree.IsDir, hnode]
      rw [hdir]
      exact .ok (by simp)
    | directory hnode =>
      have hdir : decide (T.IsDir src) = true := by simp [Tree.IsDir, hnode]
      rw [hdir]
      exact .ok (by simp)
    | deleted => exact .error (by simp)

section

variable (h : Shows t s T)

include h

theorem destinationIsDir_plain :
    destinationIsDir (plain t r) s dst = (T.node dst).map fun v => decide (v = .dir) := by
  rw [destinationIsDir]
  cases hget : s.get dst with
  | none =>
    rw [h.node_of_none hget]
    cases hnode : t.node dst with
    | none =>
      rw [if_neg (by rw [isDir_dir_iff, hnode]; simp),
        if_neg (by rw [pathExists_dir_iff, hnode]; simp)]
      rfl
    | some v =>
      cases v with
      | dir =>
        rw [if_pos (isDir_dir_iff.mpr hnode)]
        rfl
      | file c =>
        rw [if_neg (by rw [isDir_dir_iff, hnode]; simp),
          if_pos (by rw [pathExists_dir_iff, hnode]; simp)]
        rfl
  | some entry =>
    cases h.found hget <;> next hnode =>
      rw [hnode]
      rfl

theorem rejectRenameTypeMismatch_decides (dst : Key) (srcIsDir : Bool) :
    Decides (rejectRenameTypeMismatch (plain t r) s dst srcIsDir)
      (if srcIsDir = true then T.node dst = none ∨ T.IsDir dst else ¬ T.IsDir dst) () := by
  unfold rejectRenameTypeMismatch
  rw [destinationIsDir_plain h, Tree.IsDir]
  cases T.node dst with
  | none => cases srcIsDir <;> exact .ok (by simp)
  | some v =>
    cases v with
    | file c =>
      cases srcIsDir with
      | true => exact .error (by simp)
      | false => exact .ok (by simp)
    | dir =>
      cases srcIsDir with
      | true => exact .ok (by simp)
      | false => exact .error (by simp)

theorem dstIsDir_plain_iff (dst : Key) : dstIsDir (plain t r) s dst = true ↔ T.IsDir dst := by
  rw [dstIsDir]
  cases hget : s.get dst with
  | none =>
    rw [Tree.IsDir, h.node_of_none hget]
    exact isDir_dir_iff
  | some entry =>
    cases h.found hget with
    | file hnode | realFileRef _ hnode | directory hnode | deleted hnode => simp [Tree.IsDir, hnode]

theorem rejectRenameOntoNonemptyDir_decides :
    Decides (rejectRenameOntoNonemptyDir (plain t r) s dst) (T.IsDir dst → T.Empty dst) () := by
  have hisDir := dstIsDir_plain_iff (r := r) h dst
  rw [rejectRenameOntoNonemptyDir]
  by_cases hdir : T.IsDir dst
  · rw [if_pos (hisDir.mpr hdir), h.empty_iff]
    cases hoverlay : overlayDirectoryHasChildren s dst with
    | true => exact .error (by simp [hdir])
    | false =>
      by_cases hreal : t.node dst = some .dir
      · obtain ⟨b, hb, hbiff⟩ := realDirectoryHasVisibleChildren_dir (s := s) hreal
        rw [if_pos (isDir_dir_iff.mpr hreal)]
        simp only [hb, bind, Except.bind]
        cases b with
        | true =>
          obtain ⟨n, hn, hdel⟩ := hbiff.mp rfl
          refine .error fun hempty => hdel ?_
          by_cases hget : s.get dst = none
          · exact (hempty hdir).2 hget n hn
          -- below an entry of the overlay every name of the host has one, none of them visible
          have hentry := h.shadow dst (dst ++ [n]) hget (prefix_append dst [n]) hn
          obtain ⟨entry, hentry⟩ := Option.ne_none_iff_exists'.mp hentry
          by_contra hnot
          rw [Bool.eq_false_iff, ne_eq, overlayDirectoryHasChildren_iff] at hoverlay
          exact hoverlay ⟨dst ++ [n], entry, prefix_append dst [n], by simp, hentry,
            fun heq => hnot (by rw [hentry, heq])⟩
        | false =>
          refine .ok fun _ => ⟨trivial, fun _ n hn => ?_⟩
          by_contra hdel
          cases hbiff.mpr ⟨n, hn, hdel⟩
      · rw [if_neg (mt isDir_dir_iff.mp hreal)]
        exact .ok fun _ => ⟨rfl, fun _ n hn => absurd (t.parent dst n hn) hreal⟩
  · rw [if_neg (mt hisDir.mp hdir)]
    exact .ok fun hd => absurd hd hdir

theorem rejectDirectoryRename_decides (src dst : Key) (srcIsDir : Bool) :
    Decides (rejectDirectoryRename (plain t r) s src dst srcIsDir)
      (srcIsDir = true → (T.IsDir dst → T.Empty dst) ∧ ¬ (src <+: dst ∧ dst ≠ src)) () := by
  cases srcIsDir with
  | false => exact .ok (by simp)
  | true =>
    refine ((rejectRenameOntoNonemptyDir_decides h).bind fun _ =>
      (?_ : Decides _ (¬ (src <+: dst ∧ dst ≠ src)) ())).congr (by simp)
    by_cases hinside : src <+: dst ∧ dst ≠ src
    · rw [if_pos hinside]
      exact .error (not_not.mpr hinside)
    · rw [if_neg hinside]
      exact .ok hinside

end

/-! ## The plan -/

/-- The entry that stands for a path: its own one, or what the host has, captured. -/
def moved (t : HostTree) (s : OverlayState) (j : Key) : Option OverlayEntry :=
  match s.get j with
  | some entry => some entry
  | none => if t.node j = none then none else some (captured t j)

variable {j : Key} {entry : OverlayEntry}

theorem moved_eq_some_iff : moved t s j = some entry ↔
    s.get j = some entry ∨ s.get j = none ∧ t.node j ≠ none ∧ captured t j = entry := by
  rw [moved]
  cases s.get j <;> simp

include h in
theorem entryNode_moved (hj : moved t s j = some entry) : entryNode t entry = T.node j := by
  rcases moved_eq_some_iff.mp hj with hget | ⟨hget, hnode, rfl⟩
  · exact (h.node_of_entry hget).symm
  · rw [h.node_of_none hget, entryNode_captured hnode]

include h in
theorem moved_eq_ref {relative : Key}
    (hj : moved t s j = some (.realFileRef relative)) : ∃ c, t.node relative = some (.file c) := by
  rcases moved_eq_some_iff.mp hj with hget | ⟨-, hnode, href⟩
  · exact h.refs j relative hget
  · exact captured_eq_ref hnode href

theorem moved_eq_none_iff : moved t s j = none ↔ s.get j = none ∧ t.node j = none := by
  rw [moved]
  cases s.get j with
  | some e => simp
  | none => simp

include h in
theorem sourceEntry_settles (hget : s.get src ≠ some .deleted) :
    Settles (sourceEntry (plain t r) s src) (T.node src ≠ none) (moved t s src = some ·) := by
  rw [sourceEntry, moved]
  cases hsrc : s.get src with
  | some entry =>
    refine ⟨fun _ => ⟨entry, rfl, rfl⟩, fun hnone => absurd ?_ hnone⟩
    exact h.node_ne_none_of_entry hsrc fun hdel => hget (by rw [hsrc, hdel])
  | none =>
    rw [h.node_of_none hsrc]
    simp only [resolveReal_dir, bind, Except.bind]
    by_cases hbelow : t.belowFile src = true
    · rw [classifyTarget_belowFile hbelow, node_of_belowFile hbelow]
      exact ⟨fun hnode => absurd rfl hnode, fun _ => ⟨_, rfl⟩⟩
    rw [classifyTarget_dir (Bool.eq_false_iff.mpr hbelow), HostTree.target]
    cases hnode : t.node src with
    | none => exact ⟨fun hne => absurd rfl hne, fun _ => ⟨_, rfl⟩⟩
    | some v =>
      refine ⟨fun _ => ?_, fun hnone => absurd (by simp) hnone⟩
      cases v with
      | dir => exact ⟨.directory, rfl, by simp [captured, hnode]⟩
      | file c =>
        exact ⟨.realFileRef src, by simp [fromRelative_dir, hnode,
          content?], by simp [captured, hnode]⟩

/-- The moves below the source: each path that an entry stands for, with that entry. -/
def IsMoves (t : HostTree) (s : OverlayState) (src dst : Key)
    (moves : List (Key × Key × OverlayEntry)) : Prop :=
  ∀ old new entry, (old, new, entry) ∈ moves ↔
    (src <+: old ∧ old ≠ src) ∧ moved t s old = some entry ∧ new = movedTo src dst old

include h in
/-- **All that is below the source moves.** -/
theorem descendantMoves_dir (src dst : Key) :
    ∃ moves, descendantMoves (plain t r) s src dst true = .ok moves ∧
      IsMoves t s src dst (moves.1 ++ moves.2) := by
  have hhandled : ∀ j ∈ (s.prefixIter src).map Prod.fst, s.get j ≠ none := fun j hj => by
    obtain ⟨p, hp, rfl⟩ := mem_map.mp hj
    rw [(mem_prefixIter.mp hp).1]
    simp
  -- what the host adds is what is loose, also if it has no directory there
  have hreal : ∃ real, realDescendants (plain t r) s src ((s.prefixIter src).map Prod.fst)
      .unlimited = .ok real ∧
      ∀ j entry, (j, entry) ∈ real ↔ Loose t s src j ∧ entry = captured t j := by
    rw [realDescendants, resolveReal_dir]
    by_cases hdir : t.node src = some .dir
    · obtain ⟨real, hcollect, hreal⟩ := collectRealDescendants_dir h hhandled hdir
      refine ⟨real, ?_, hreal⟩
      simp only [isDir_dir_iff.mpr hdir, if_true, hcollect]
    refine ⟨[], by simp only [mt isDir_dir_iff.mp hdir]; rfl, fun j entry => ?_⟩
    constructor
    · intro hmem
      cases hmem
    · rintro ⟨hloose, -⟩
      obtain ⟨l, rfl⟩ := hloose.below
      have hl : l ≠ [] := fun hl => hloose.ne (by rw [hl, append_nil])
      exact absurd (isDir_of_append (t := t.toTree) hl hloose.node) hdir
  obtain ⟨real, hreal, hmem⟩ := hreal
  refine ⟨_, by
    rw [descendantMoves, if_pos rfl]
    simp only [availableMemory_plain, MemoryBudget.shrink_unlimited, hreal, bind, Except.bind]
    rfl, fun old new entry => ?_⟩
  simp only [mem_append, mem_map, Prod.mk.injEq, Prod.exists]
  constructor
  · rintro (⟨j, e, hp, rfl, rfl, rfl⟩ | ⟨j, e, hp, rfl, rfl, rfl⟩)
    · obtain ⟨hget, hbelow⟩ := mem_prefixIter.mp hp
      exact ⟨hbelow, by rw [moved, hget], rfl⟩
    · obtain ⟨hloose, rfl⟩ := (hmem _ _).mp hp
      exact ⟨⟨hloose.below, hloose.ne⟩, by rw [moved, hloose.get]; exact if_neg hloose.node, rfl⟩
  rintro ⟨hbelow, hmoved, rfl⟩
  rcases moved_eq_some_iff.mp hmoved with hget | ⟨hget, hnode, hentry⟩
  · exact .inl ⟨old, entry, mem_prefixIter.mpr ⟨hget, hbelow⟩, rfl, rfl, rfl⟩
  · exact .inr ⟨old, entry, (hmem _ _).mpr ⟨⟨hbelow.1, hbelow.2, hnode, hget⟩, hentry.symm⟩,
      rfl, rfl, rfl⟩

/-- What a plan for an allowed rename is. -/
structure PlanSpec (t : HostTree) (s : OverlayState) (T : Tree String Bytes) (src dst : Key)
    (plan : RenamePlan) : Prop where
  src_eq : plan.src = src
  dst_eq : plan.dst = dst
  entry : moved t s src = some plan.entry
  dir : T.IsDir src → IsMoves t s src dst (plan.overlayMoves ++ plan.realMoves)
  file : ¬ T.IsDir src → plan.overlayMoves = [] ∧ plan.realMoves = []

/-- What the checks of a rename ask of the tree, in their order. -/
def Checked (T : Tree String Bytes) (s : OverlayState) (src dst : Key) : Prop :=
  src ≠ [] ∧ dst ≠ [] ∧ T.IsDir dst.dropLast ∧ T.IsDir src.dropLast ∧ s.get src ≠ some .deleted ∧
    (T.IsDir src → T.node dst = none ∨ T.IsDir dst) ∧ (¬ T.IsDir src → ¬ T.IsDir dst) ∧
    (T.IsDir src → (T.IsDir dst → T.Empty dst) ∧ ¬ (src <+: dst ∧ dst ≠ src)) ∧ T.node src ≠ none

include h in
/-- The checks ask for what the tree asks for. -/
theorem checked_iff (hne : src ≠ dst) : Checked T s src dst ↔ T.Movable src dst := by
  constructor
  · rintro ⟨hsrc, hdst, hdstDir, -, -, htype, hfile, hdir, hnode⟩
    refine ⟨hsrc, hnode, ⟨hdst, hdstDir⟩, hfile, fun hd => ⟨?_, fun hsub => ?_⟩⟩
    · rcases htype hd with hnone | hisDir
      · exact .inl hnone
      · exact .inr ⟨hisDir, (hdir hd).1 hisDir⟩
    · exact (hdir hd).2 ⟨hsub, hne.symm⟩
  intro hmove
  refine ⟨hmove.src_ne, hmove.placeable.1, hmove.placeable.2,
    (placeable_of_node hmove.src_ne hmove.exists_src).2, fun hdel => ?_, fun hd => ?_, hmove.file,
    fun hd => ⟨fun hisDir => ?_, fun hinside => (hmove.dir hd).2 hinside.1⟩, hmove.exists_src⟩
  · exact hmove.exists_src (h.node_of_entry hdel)
  · exact (hmove.dir hd).1.imp id And.left
  · rcases (hmove.dir hd).1 with hnone | hempty
    · rw [Tree.IsDir, hnone] at hisDir
      cases hisDir
    · exact hempty.2

include h in
open Classical in
/-- **The plan** is made just if the checks allow it. -/
theorem planRename_checked :
    Settles (planRename (plain t r) s src dst) (Checked T s src dst) (PlanSpec t s T src dst) := by
  refine (rejectMountRoot_decides src).bind_settles fun _ => ?_
  refine (rejectMountRoot_decides dst).bind_settles fun _ => ?_
  refine (h.ensureParentExists_decides dst).bind_settles fun _ => ?_
  rw [resolveDestination_plain]
  refine (h.ensureParentExists_decides src).bind_settles fun _ => ?_
  refine (sourceIsDir_decides h).bind_settles fun hget => ?_
  have htype := (rejectRenameTypeMismatch_decides (r := r) h dst
    (decide (T.IsDir src))).congr (q := (T.IsDir src → T.node dst = none ∨ T.IsDir dst) ∧
      (¬ T.IsDir src → ¬ T.IsDir dst)) (by
    by_cases hd : T.IsDir src <;> simp [hd])
  refine (htype.bind_settles fun _ => ?_).congr and_assoc
  have hdir := (rejectDirectoryRename_decides (r := r) h src dst
    (decide (T.IsDir src))).congr (q := T.IsDir src → (T.IsDir dst → T.Empty dst) ∧
      ¬ (src <+: dst ∧ dst ≠ src)) (by rw [decide_eq_true_iff])
  refine hdir.bind_settles fun _ => ?_
  refine ((sourceEntry_settles h hget).bind fun _ entry hentry => ?_).congr
    ⟨And.left, fun hnode => ⟨hnode, trivial⟩⟩
  refine ⟨fun _ => ?_, fun hnot => absurd trivial hnot⟩
  by_cases hd : T.IsDir src
  · obtain ⟨moves, hmoves, hspec⟩ := descendantMoves_dir h src dst
    refine ⟨⟨src, dst, entry, moves.1, moves.2⟩, ?_, rfl, rfl, hentry, fun _ => hspec,
      fun hnot => absurd hd hnot⟩
    rw [decide_eq_true hd, hmoves]
    rfl
  · refine ⟨⟨src, dst, entry, [], []⟩, ?_, rfl, rfl, hentry, fun hdir => absurd hdir hd,
      fun _ => ⟨rfl, rfl⟩⟩
    rw [decide_eq_false hd]
    rfl

include h in
theorem planRename_settles (hne : src ≠ dst) :
    Settles (planRename (plain t r) s src dst) (T.Movable src dst) (PlanSpec t s T src dst) :=
  (planRename_checked h).congr (checked_iff h hne)

/-! ## The commit -/

variable {l : Key} {s' : OverlayState}

section Commit

variable {plan : RenamePlan}

section

variable (hmove : T.Movable src dst) (hne : src ≠ dst)

include hmove hne

theorem not_src_prefix_dst : ¬ src <+: dst := by
  intro hsub
  by_cases hd : T.IsDir src
  · exact (hmove.dir hd).2 hsub
  -- the destination is in a directory, and nothing is below a file
  exact Shows.not_isDir_dropLast hsub hne hd hmove.placeable.2

theorem not_dst_prefix_src : ¬ dst <+: src := by
  rintro ⟨l, rfl⟩
  have hl : l ≠ [] := fun hl => hne (by rw [hl, append_nil])
  have hdst : T.IsDir dst := isDir_of_append hl hmove.exists_src
  by_cases hd : T.IsDir (dst ++ l)
  · rcases (hmove.dir hd).1 with hnone | hempty
    · rw [Tree.IsDir, hnone] at hdst
      cases hdst
    · exact hmove.exists_src (hempty.2.node_append hl)
  · exact hmove.file hd hdst

theorem append_ne_append (l l' : Key) : src ++ l ≠ dst ++ l' := by
  intro heq
  rcases prefix_or_prefix_of_prefix (prefix_append src l) (heq ▸ prefix_append dst l') with h | h
  · exact not_src_prefix_dst hmove hne h
  · exact not_dst_prefix_src hmove hne h

end

theorem node_below_dst (hmove : T.Movable src dst) (hl : l ≠ []) : T.node (dst ++ l) = none := by
  by_cases hd : T.IsDir dst
  · by_cases hsrc : T.IsDir src
    · rcases (hmove.dir hsrc).1 with hnone | hempty
      · rw [Tree.IsDir, hnone] at hd
        cases hd
      · exact hempty.2.node_append hl
    · exact absurd hd (hmove.file hsrc)
  · exact node_append_eq_none hl hd

/-- The entry that moves along with the source, at a path relative to it. -/
def goes (t : HostTree) (s : OverlayState) (T : Tree String Bytes) (src l : Key)
    (entry : OverlayEntry) : Prop :=
  (l = [] ∨ T.IsDir src) ∧ moved t s (src ++ l) = some entry

theorem mem_moves_iff (hplan : PlanSpec t s T src dst plan) {old new : Key} :
    (old, new, entry) ∈ (plan.src, plan.dst, plan.entry) :: (plan.overlayMoves ++ plan.realMoves) ↔
      ∃ l, old = src ++ l ∧ new = dst ++ l ∧ goes t s T src l entry := by
  rw [mem_cons, hplan.src_eq, hplan.dst_eq]
  constructor
  · rintro (heq | hmem)
    · cases heq
      exact ⟨[], by simp, by simp, .inl rfl, by rw [append_nil]; exact hplan.entry⟩
    by_cases hd : T.IsDir src
    · obtain ⟨⟨⟨l, rfl⟩, -⟩, hmoved, rfl⟩ := (hplan.dir hd old new entry).mp hmem
      exact ⟨l, rfl, by rw [movedTo, drop_left], .inr hd, hmoved⟩
    · rw [(hplan.file hd).1, (hplan.file hd).2] at hmem
      cases hmem
  rintro ⟨l, rfl, rfl, hl, hmoved⟩
  by_cases hnil : l = []
  · subst hnil
    rw [append_nil] at hmoved ⊢
    rw [hplan.entry] at hmoved
    cases hmoved
    exact .inl (by rw [append_nil])
  · have hd := hl.resolve_left hnil
    refine .inr ((hplan.dir hd _ _ entry).mpr ⟨⟨prefix_append src l, by simpa using hnil⟩,
      hmoved, by rw [movedTo, drop_left]⟩)

variable {k : Key}

theorem mem_replacements_iff (hplan : PlanSpec t s T src dst plan)
    : (k, entry) ∈ plan.replacements ↔ ∃ l e, goes t s T src l e ∧
        (k = src ++ l ∧ entry = .deleted ∨ k = dst ++ l ∧ entry = e) := by
  rw [RenamePlan.replacements, RenamePlan.replace, mem_flatMap]
  constructor
  · rintro ⟨⟨old, new, e⟩, hmem, hp⟩
    obtain ⟨l, rfl, rfl, hgoes⟩ := (mem_moves_iff hplan).mp hmem
    refine ⟨l, e, hgoes, ?_⟩
    simpa using hp
  · rintro ⟨l, e, hgoes, hp⟩
    exact ⟨(src ++ l, dst ++ l, e), (mem_moves_iff hplan).mpr
      ⟨l, rfl, rfl, hgoes⟩, by simpa using hp⟩

/-- Whatever does not belong to the move stays. -/
theorem get_putAll_other (hplan : PlanSpec t s T src dst plan)
    (hk : ∀ l entry, goes t s T src l entry → k ≠ src ++ l ∧ k ≠ dst ++ l) :
    (s.putAll r plan.replacements).get k = s.get k := by
  rw [OverlayState.get, entries_putAll]
  refine lookup_insertAll_of_notMem fun p hp heq => ?_
  obtain ⟨l, e', hgoes, hcases⟩ := (mem_replacements_iff hplan).mp hp
  rcases hcases with ⟨hsrc, -⟩ | ⟨hdst, -⟩
  · exact (hk l e' hgoes).1 (heq.symm.trans hsrc)
  · exact (hk l e' hgoes).2 (heq.symm.trans hdst)

section

variable (hmove : T.Movable src dst) (hne : src ≠ dst) (hplan : PlanSpec t s T src dst plan)

include hmove hne hplan

theorem get_putAll_src (hgoes : goes t s T src l entry) :
    (s.putAll r plan.replacements).get (src ++ l) = some .deleted := by
  rw [OverlayState.get, entries_putAll]
  refine lookup_insertAll_of_mem
    ((mem_replacements_iff hplan).mpr ⟨l, entry, hgoes, .inl ⟨rfl, rfl⟩⟩) fun p hp hk => ?_
  obtain ⟨l', e', -, hcases⟩ := (mem_replacements_iff hplan).mp hp
  rcases hcases with ⟨-, he⟩ | ⟨hdst, -⟩
  · exact he
  · exact absurd (hk.symm.trans hdst) (append_ne_append hmove hne l l')

theorem get_putAll_dst (hgoes : goes t s T src l entry) :
    (s.putAll r plan.replacements).get (dst ++ l) = some entry := by
  rw [OverlayState.get, entries_putAll]
  refine lookup_insertAll_of_mem
    ((mem_replacements_iff hplan).mpr ⟨l, entry, hgoes, .inr ⟨rfl, rfl⟩⟩) fun p hp hk => ?_
  obtain ⟨l', e', hgoes', hcases⟩ := (mem_replacements_iff hplan).mp hp
  rcases hcases with ⟨hsrc, -⟩ | ⟨hdst, he⟩
  · exact absurd (hsrc.symm.trans hk) (append_ne_append hmove hne l' l)
  · have hl : l' = l := append_cancel_left (hdst.symm.trans hk)
    subst hl
    exact he.trans (Option.mem_unique hgoes'.2 hgoes.2)

end

include h in
/-- Where nothing moves from, there was nothing. -/
theorem node_of_not_goes (hplan : PlanSpec t s T src dst plan)
    (hnot : ¬ ∃ entry, goes t s T src l entry) : l ≠ [] ∧ T.node (src ++ l) = none := by
  have hl : l ≠ [] := by
    rintro rfl
    exact hnot ⟨plan.entry, .inl rfl, by rw [append_nil]; exact hplan.entry⟩
  refine ⟨hl, ?_⟩
  by_cases hd : T.IsDir src
  · have hmoved : moved t s (src ++ l) = none := by
      by_contra hmoved
      obtain ⟨entry, hentry⟩ := Option.ne_none_iff_exists'.mp hmoved
      exact hnot ⟨entry, .inr hd, hentry⟩
    obtain ⟨hget, hnode⟩ := moved_eq_none_iff.mp hmoved
    rw [h.node_of_none hget, hnode]
  · exact node_append_eq_none hl hd

include h in
/-- **The whole subtree moves.** -/
theorem Shows.rename (hmove : T.Movable src dst) (hne : src ≠ dst)
    (hplan : PlanSpec t s T src dst plan)
    (hs' : ∀ k, s'.get k = (s.putAll r plan.replacements).get k) :
    Shows t s' (T.move src dst hmove.src_ne hmove.placeable) := by
  refine h.overwrite (D := fun k => ∃ l entry, goes t s T src l entry ∧
    (k = src ++ l ∨ k = dst ++ l))
    (fun k hk => ⟨?_, ?_⟩) ?_ ?_ ?_
  · rw [hs']
    exact get_putAll_other hplan fun l entry hgoes =>
      ⟨fun h => hk ⟨l, entry, hgoes, .inl h⟩, fun h => hk ⟨l, entry, hgoes, .inr h⟩⟩
  · by_cases hsrc : src <+: k
    · obtain ⟨l, rfl⟩ := hsrc
      rw [node_move_src (prefix_append src l)]
      exact (node_of_not_goes h hplan fun ⟨entry, hgoes⟩ => hk ⟨l, entry, hgoes, .inl rfl⟩).2.symm
    by_cases hdst : dst <+: k
    · obtain ⟨l, rfl⟩ := hdst
      obtain ⟨hl, hnode⟩ := node_of_not_goes h hplan fun ⟨entry, hgoes⟩ =>
        hk ⟨l, entry, hgoes, .inr rfl⟩
      rw [node_move_dst hsrc, hnode, node_below_dst hmove hl]
    · exact node_move_of_not hsrc hdst
  · rintro _ ⟨l, entry, hgoes, rfl | rfl⟩
    · exact ⟨.deleted, by rw [hs', get_putAll_src hmove hne hplan hgoes],
        (node_move_src (prefix_append src l)).symm, nofun⟩
    · have hsrc : ¬ src <+: dst ++ l := fun ⟨l', heq⟩ => append_ne_append hmove hne l' l heq
      refine ⟨entry, by rw [hs', get_putAll_dst hmove hne hplan hgoes], ?_, fun relative href => ?_⟩
      · rw [node_move_dst hsrc, entryNode_moved h hgoes.2]
      · exact moved_eq_ref h (href ▸ hgoes.2)
  · rintro ⟨l, entry, -, heq | heq⟩
    · exact hmove.src_ne (append_eq_nil_iff.mp heq.symm).1
    · exact hmove.placeable.1 (append_eq_nil_iff.mp heq.symm).1
  · intro i j hi hij hj hget
    have hnode : T.node j ≠ none := by rwa [h.node_of_none hget]
    by_contra hnot
    obtain ⟨l, entry, -, rfl | rfl⟩ := hi
    · obtain ⟨l', rfl⟩ := (prefix_append src l).trans hij
      exact hnode (node_of_not_goes h hplan fun ⟨entry, hgoes⟩ => hnot
        ⟨l', entry, hgoes, .inl rfl⟩).2
    · obtain ⟨l', rfl⟩ := (prefix_append dst l).trans hij
      exact hnode (node_below_dst hmove
        (node_of_not_goes h hplan fun ⟨entry, hgoes⟩ => hnot ⟨l', entry, hgoes, .inr rfl⟩).1)

end Commit

/-- **Renaming.** -/
theorem rename_reaches (h : Shows t m.state T) (hne : src ≠ dst) :
    Reaches t T (rename (plain t r) src dst m) (· = .none) (T.rename src dst) := by
  have hplan := planRename_settles (r := r) h hne
  rw [Fs.rename, get_bind_apply, Tree.rename]
  by_cases hmove : T.Movable src dst
  · obtain ⟨plan, heq, hspec⟩ := hplan.eq_ok hmove
    rw [dif_pos hmove, lift_bind_of_ok heq, lift_bind_of_ok checkReplacements_plain,
      bind_of_ok (onState_apply_ok (commit_apply (matches_of_planRename heq))), pure_apply]
    exact ⟨_, _, rfl, rfl, h.rename hmove hne hspec fun k => get_commit k⟩
  · obtain ⟨err, herr⟩ := hplan.eq_error hmove
    rw [dif_neg hmove, lift_bind_of_error herr]
    exact ⟨err, m, rfl, h⟩

/-! ## Renaming onto itself -/

variable {plan : RenamePlan} {p : Key}

include h in
/-- What the checks ask for if both paths are the same. -/
theorem checked_self_iff :
    Checked T s p p ↔ p ≠ [] ∧ T.node p ≠ none ∧ (T.IsDir p → T.Empty p) := by
  constructor
  · rintro ⟨hp, -, -, -, -, -, -, hdir, hnode⟩
    exact ⟨hp, hnode, fun hd => (hdir hd).1 hd⟩
  · rintro ⟨hp, hnode, hempty⟩
    have hparent := (placeable_of_node hp hnode).2
    exact ⟨hp, hp, hparent, hparent, fun hdel => hnode (h.node_of_entry hdel),
      fun hd => .inr hd, id, fun hd => ⟨fun _ => hempty hd, fun hinside => hinside.2 rfl⟩, hnode⟩

theorem get_putAll_self (hplan : PlanSpec t s T p p plan) (hgoes : goes t s T p l entry) :
    (s.putAll r plan.replacements).get (p ++ l) = some entry := by
  have hback : ∀ q ∈ (plan.src, plan.dst, plan.entry) :: (plan.overlayMoves ++ plan.realMoves),
      q.2.1 = q.1 := fun q hq => by
    obtain ⟨l', hold, hnew, -⟩ := (mem_moves_iff hplan).mp hq
    rw [hold, hnew]
  have hpairs : plan.replacements =
      (((plan.src, plan.dst, plan.entry) :: (plan.overlayMoves ++ plan.realMoves)).map
        fun q => (q.1, q.2.2)).flatMap fun q => [(q.1, .deleted), q] := by
    rw [flatMap_map]
    refine flatMap_congr fun q hq => ?_
    rw [hback q hq]
  rw [OverlayState.get, entries_putAll, hpairs]
  rw [lookup_insertAll_twice]
  refine lookup_insertAll_of_mem ?_ fun q hq hk => ?_
  · exact mem_map.mpr ⟨(p ++ l, p ++ l, entry), (mem_moves_iff hplan).mpr ⟨l, rfl, rfl, hgoes⟩, rfl⟩
  obtain ⟨⟨old, new, e⟩, hmem, rfl⟩ := mem_map.mp hq
  obtain ⟨l', rfl, -, hgoes'⟩ := (mem_moves_iff hplan).mp hmem
  have hl : l' = l := append_cancel_left hk
  subst hl
  exact Option.mem_unique hgoes'.2 hgoes.2

include h in
/-- Everything is as it was, with entries for all that moved. -/
theorem Shows.rename_self (hp : p ≠ []) (hplan : PlanSpec t s T p p plan)
    (hs' : ∀ k, s'.get k = (s.putAll r plan.replacements).get k) :
    Shows t s' T := by
  refine h.overwrite (D := fun k => ∃ l entry, goes t s T p l entry ∧ k = p ++ l)
    (fun k hk => ⟨?_, rfl⟩) ?_ ?_ fun i j hi hij hj hget => ?_
  · have hother := fun l entry hgoes hkl => hk ⟨l, entry, hgoes, hkl⟩
    rw [hs', get_putAll_other hplan fun l entry hgoes =>
      ⟨hother l entry hgoes, hother l entry hgoes⟩]
  · rintro _ ⟨l, entry, hgoes, rfl⟩
    exact ⟨entry, by rw [hs', get_putAll_self hplan hgoes], entryNode_moved h hgoes.2,
      fun relative href => moved_eq_ref h (href ▸ hgoes.2)⟩
  · rintro ⟨l, entry, -, heq⟩
    exact hp (append_eq_nil_iff.mp heq.symm).1
  · -- what is below an entry that moves has moved as well, if there is anything
    obtain ⟨l, entry, -, rfl⟩ := hi
    obtain ⟨l', rfl⟩ := (prefix_append p l).trans hij
    by_contra hnot
    exact hj ((h.node_of_none hget).symm.trans
      (node_of_not_goes h hplan fun ⟨entry, hgoes⟩ => hnot ⟨l', entry, hgoes, rfl⟩).2)

/-- **Renaming onto itself** changes nothing, where it is not refused. -/
theorem rename_self_reaches (h : Shows t m.state T) : Settles (answer (rename (plain t r) p p) m)
      (p ≠ [] ∧ T.node p ≠ none ∧ (T.IsDir p → T.Empty p)) (· = .none) ∧
      Shows t (after (rename (plain t r) p p) m).state T := by
  have hplan : Settles (planRename (plain t r) m.state p p) _ (PlanSpec t m.state T p p) :=
    (planRename_checked h).congr (checked_self_iff h)
  rw [answer, Fallible.after, Fs.rename, get_bind_apply]
  by_cases hself : p ≠ [] ∧ T.node p ≠ none ∧ (T.IsDir p → T.Empty p)
  · obtain ⟨plan, heq, hspec⟩ := hplan.eq_ok hself
    rw [lift_bind_of_ok heq, lift_bind_of_ok checkReplacements_plain,
      bind_of_ok (onState_apply_ok (commit_apply (matches_of_planRename heq))), pure_apply]
    exact ⟨⟨fun _ => ⟨_, rfl, rfl⟩, fun hnot => absurd hself hnot⟩,
      h.rename_self hself.1 hspec fun k => get_commit k⟩
  · obtain ⟨err, herr⟩ := hplan.eq_error hself
    rw [lift_bind_of_error herr]
    exact ⟨⟨fun hyes => absurd hyes hself, fun _ => ⟨err, rfl⟩⟩, h⟩

end Monty.Fs
