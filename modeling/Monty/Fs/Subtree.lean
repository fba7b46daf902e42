import Monty.Fs.Directories

/-!
# What a rename captures

Below a directory that is renamed, everything the host has and the overlay has no entry for is
*loose*. `collectRealDescendants` walks the host's directories with a stack and finds just what is
loose (`collectRealDescendants_dir`). It passes over names that have an entry and never looks below
them, which is right because of `Shows.shadow`: what is below an entry is not loose.

The walk ends because no directory is listed twice; `Collecting` keeps the list of those that were.
-/

namespace Monty.Fs

open FileTree FileTree.Tree HostTree List

variable {t : HostTree} {T : Tree String Bytes} {s : OverlayState} {src : Key}

/-- The host has something below `src`, and the overlay has no entry for it. -/
structure Loose (t : HostTree) (s : OverlayState) (src j : Key) : Prop where
  below : src <+: j
  ne : j ≠ src
  node : t.node j ≠ none
  get : s.get j = none

def captured (t : HostTree) (j : Key) : OverlayEntry :=
  match t.node j with
  | some .dir => .directory
  | _ => .realFileRef j

theorem entryNode_captured {j : Key} (hj : t.node j ≠ none) :
    entryNode t (captured t j) = t.node j := by
  rw [captured]
  rcases hnode : t.node j with _ | c | _
  · exact absurd hnode hj
  · exact hnode
  · rfl

theorem captured_eq_ref {j relative : Key} (hj : t.node j ≠ none)
    (h : captured t j = .realFileRef relative) : ∃ c, t.node relative = some (.file c) := by
  rw [captured] at h
  rcases hnode : t.node j with _ | c | _ <;> rw [hnode] at h
  · exact absurd hnode hj
  · cases h
    exact ⟨c, hnode⟩
  · cases h

/-! ## One directory -/

/-- The names of a listing without entries. -/
def looseNames (s : OverlayState) (k : Key) (listing : List (String × FileType)) :
    List (String × FileType) :=
  listing.filter fun p => (s.get (k ++ [p.1])).isNone

section

variable {handled : List Key}

theorem collectEntries_dir (hhandled : ∀ j ∈ handled, s.get j ≠ none) (path k : Key)
    {listing : List (String × FileType)}
    (hlisting : ∀ p ∈ listing, ∃ v, t.node (k ++ [p.1]) = some v ∧ p.2 = fileType v)
    (acc : Collected) :
    ∃ acc', collectEntries s t.dir handled path .unlimited k listing acc = .ok acc' ∧
      acc'.result = acc.result ++
        (looseNames s k listing).map (fun p => (k ++ [p.1], captured t (k ++ [p.1]))) ∧
      acc'.dirs = (((looseNames s k listing).filter fun p => p.2 = .dir).map
        fun p => k ++ [p.1]).reverse ++ acc.dirs := by
  induction listing generalizing acc with
  | nil => exact ⟨acc, rfl, by simp [looseNames], by simp [looseNames]⟩
  | cons p listing ih =>
    have ih := fun acc => ih (fun q hq => hlisting q (mem_cons_of_mem _ hq)) acc
    obtain ⟨v, hv, hty⟩ := hlisting p mem_cons_self
    obtain ⟨n, ty⟩ := p
    simp only at hv hty
    subst hty
    unfold collectEntries
    cases hget : s.get (k ++ [n]) with
    | some entry =>
      obtain ⟨acc', hacc', hresult, hdirs⟩ := ih acc
      refine ⟨acc', by simpa [hget] using hacc', ?_, ?_⟩
      · rw [hresult, looseNames, looseNames, filter_cons_of_neg (by simp [hget])]
      · rw [hdirs, looseNames, looseNames, filter_cons_of_neg (by simp [hget])]
    | none =>
      have hnot : k ++ [n] ∉ handled := fun hmem => hhandled _ hmem hget
      have hloose : looseNames s k ((n, fileType v) :: listing) =
          (n, fileType v) :: looseNames s k listing :=
        filter_cons_of_pos (by simp [hget])
      simp only [hget, hnot, Option.isSome_none, Bool.false_or, decide_false, Bool.false_eq_true,
        if_false]
      cases v
      all_goals
        simp only [fileType, fromRelative_dir, hv, content?, Option.map_some,
          MemoryBudget.check_unlimited, bind, Except.bind] at hloose ⊢
        obtain ⟨acc', hacc', hresult, hdirs⟩ := ih _
        refine ⟨acc', hacc', ?_, ?_⟩
        · rw [hresult, hloose]
          simp [captured, hv]
        · rw [hdirs, hloose]
          simp

end

theorem mem_looseNames_children {k : Key} {n : String} {ty : FileType} :
    (n, ty) ∈ looseNames s k (t.children k) ↔
      (∃ v, t.node (k ++ [n]) = some v ∧ ty = fileType v) ∧ s.get (k ++ [n]) = none := by
  rw [looseNames, mem_filter, mem_children, Option.isNone_iff_eq_none]

/-- The name of an entry, if it is in the directory. -/
def nameIn (k : Key) (e : Sigma fun _ : Key => Node Bytes) : Option (String × FileType) :=
  match e.1.getLast? with
  | some name => if e.1.dropLast = k then some (name, fileType e.2) else none
  | none => none

theorem eq_of_nameIn {k : Key} {e : Sigma fun _ : Key => Node Bytes} {q : String × FileType}
    (h : nameIn k e = some q) : e.1 = k ++ [q.1] := by
  unfold nameIn at h
  split at h
  · next name hname =>
    simp only [Option.ite_none_right_eq_some, Option.some.injEq] at h
    obtain ⟨rfl, rfl⟩ := h
    exact (dropLast_append_getLast? _ hname).symm
  · cases h

theorem nodup_children (k : Key) : ((t.children k).map Prod.fst).Nodup := by
  rw [List.Nodup, pairwise_map]
  refine (nodupKeys_iff_pairwise.mp t.nodes.nodupKeys).filterMap _ fun a a' hne b hb b' hb' => ?_
  intro heq
  exact hne ((eq_of_nameIn hb).trans (heq ▸ (eq_of_nameIn hb').symm))

theorem nodup_looseDirs (k : Key) : (((looseNames s k (t.children k)).filter
    fun p => p.2 = .dir).map fun p => k ++ [p.1]).Nodup := by
  have hnames : (((looseNames s k (t.children k)).filter fun p => p.2 = .dir).map Prod.fst).Nodup :=
    (nodup_children k).sublist ((filter_sublist.trans filter_sublist).map _)
  have hmap := hnames.map (f := fun n => k ++ [n]) fun a b hab => by simpa using hab
  rwa [map_map] at hmap

theorem concat_ne_of_prefix {d : Key} {n : String} (h : src <+: d) : d ++ [n] ≠ src := by
  intro heq
  have hlen := h.length_le
  rw [← heq, length_append, length_singleton] at hlen
  omega

/-! ## The walk -/

/-- The state of the walk: what was found is loose, what is loose was found or is below a directory
yet to be listed, and no directory comes up twice. -/
structure Collecting (t : HostTree) (s : OverlayState) (src : Key) (listed : List Key)
    (acc : Collected) : Prop where
  result : ∀ p ∈ acc.result, Loose t s src p.1 ∧ p.2 = captured t p.1
  dirs : ∀ d ∈ acc.dirs, src <+: d ∧ t.node d = some .dir
  complete : ∀ j, Loose t s src j → (∃ p ∈ acc.result, p.1 = j) ∨ ∃ d ∈ acc.dirs, d <+: j ∧ d ≠ j
  nodup : (listed ++ acc.dirs).Nodup
  exists_listed : ∀ d ∈ listed, t.node d ≠ none
  parent : ∀ d ∈ listed ++ acc.dirs, d = src ∨ d.dropLast ∈ listed

theorem collecting_start (hsrc : t.node src = some .dir) {usage : Nat} :
    Collecting t s src [] ⟨[], [src], usage⟩ where
  result _ hp := nomatch hp
  dirs d hd := by
    rw [mem_singleton.mp hd]
    exact ⟨prefix_rfl, hsrc⟩
  complete j hj := .inr ⟨src, mem_singleton_self src, hj.below, hj.ne.symm⟩
  nodup := nodup_singleton src
  exists_listed _ hd := nomatch hd
  parent d hd := .inl (mem_singleton.mp hd)

variable {listed : List Key} {acc : Collected}

/-- **Listing one more directory.** -/
theorem Collecting.step (h : Shows t s T) {acc' : Collected} {d : Key}
    {dirs : List Key} (hacc : Collecting t s src listed acc) (hd : acc.dirs = d :: dirs)
    (hresult : acc'.result = acc.result ++
      (looseNames s d (t.children d)).map (fun p => (d ++ [p.1], captured t (d ++ [p.1]))))
    (hdirs : acc'.dirs = (((looseNames s d (t.children d)).filter fun p => p.2 = .dir).map
      fun p => d ++ [p.1]).reverse ++ dirs) :
    Collecting t s src (d :: listed) acc' := by
  obtain ⟨hbelow, hdir⟩ := hacc.dirs d (by simp [hd])
  have hnodup := hacc.nodup
  rw [hd] at hnodup
  have hparent : ∀ e ∈ listed ++ d :: dirs, e = src ∨ e.dropLast ∈ listed := hd ▸ hacc.parent
  have hmem : ∀ e, e ∈ acc'.dirs ↔ (∃ n, e = d ++ [n] ∧ t.node e = some .dir ∧ s.get e = none) ∨
      e ∈ dirs := by
    intro e
    rw [hdirs, mem_append, mem_reverse, mem_map]
    refine or_congr_left ⟨?_, ?_⟩
    · rintro ⟨⟨n, ty⟩, hp, rfl⟩
      obtain ⟨hp, hty⟩ := mem_filter.mp hp
      obtain ⟨⟨v, hv, rfl⟩, hget⟩ := mem_looseNames_children.mp hp
      refine ⟨n, rfl, ?_, hget⟩
      cases v with
      | file c => cases of_decide_eq_true hty
      | dir => exact hv
    · rintro ⟨n, rfl, hn, hget⟩
      exact ⟨(n, .dir), mem_filter.mpr ⟨mem_looseNames_children.mpr ⟨⟨.dir, hn, rfl⟩, hget⟩,
        by simp⟩, rfl⟩
  -- a child of the directory has not come up before
  have hfresh : ∀ n, d ++ [n] ∉ listed ++ d :: dirs := by
    intro n hn
    rcases hparent _ hn with heq | hlisted
    · exact concat_ne_of_prefix hbelow heq
    · rw [dropLast_concat] at hlisted
      exact (nodup_append.mp hnodup).2.2 d hlisted d mem_cons_self rfl
  refine ⟨fun p hp => ?_, fun e he => ?_, fun j hj => ?_, ?_, fun e he => ?_, fun e he => ?_⟩
  · rw [hresult] at hp
    rcases mem_append.mp hp with hp | hp
    · exact hacc.result p hp
    · obtain ⟨⟨n, ty⟩, hn, rfl⟩ := mem_map.mp hp
      obtain ⟨⟨v, hv, -⟩, hget⟩ := mem_looseNames_children.mp hn
      exact ⟨⟨hbelow.trans (prefix_append d [n]), concat_ne_of_prefix hbelow, by simp [hv],
        hget⟩, rfl⟩
  · rcases (hmem e).mp he with ⟨n, rfl, hn, -⟩ | he
    · exact ⟨hbelow.trans (prefix_append d [n]), hn⟩
    · exact hacc.dirs e (by simp [hd, he])
  · rcases hacc.complete j hj with ⟨p, hp, rfl⟩ | ⟨e, he, hej, hne⟩
    · exact .inl ⟨p, by rw [hresult]; exact mem_append_left _ hp, rfl⟩
    rw [hd] at he
    rcases mem_cons.mp he with rfl | he
    · -- the path goes on through a child, which is loose as well
      obtain ⟨l, rfl⟩ := hej
      obtain ⟨n, l, rfl⟩ := exists_cons_of_ne_nil fun hl : l = [] =>
        hne (by rw [hl, append_nil])
      have hsplit : e ++ n :: l = (e ++ [n]) ++ l := by simp
      have hget : s.get (e ++ [n]) = none := by
        by_contra hget
        exact h.shadow _ _ hget ⟨l, hsplit.symm⟩ hj.node hj.get
      by_cases hl : l = []
      · subst hl
        obtain ⟨v, hv⟩ := Option.ne_none_iff_exists'.mp hj.node
        refine .inl ⟨(e ++ [n], captured t (e ++ [n])), ?_, rfl⟩
        rw [hresult]
        exact mem_append_right _ (mem_map.mpr ⟨(n, fileType v),
          mem_looseNames_children.mpr ⟨⟨v, hv, rfl⟩, hget⟩, rfl⟩)
      have hnode := hj.node
      rw [hsplit] at hnode
      have hn : t.node (e ++ [n]) = some .dir := isDir_of_append (t := t.toTree) hl hnode
      refine .inr ⟨e ++ [n], (hmem _).mpr (.inl ⟨n, rfl, hn, hget⟩), ⟨l, hsplit.symm⟩, ?_⟩
      rw [hsplit]
      simpa using hl
    · exact .inr ⟨e, (hmem e).mpr (.inr he), hej, hne⟩
  · have hperm : (d :: listed ++ acc'.dirs).Perm
        ((((looseNames s d (t.children d)).filter fun p => p.2 = .dir).map
          fun p => d ++ [p.1]).reverse ++ (listed ++ d :: dirs)) := by
      rw [hdirs]
      exact (perm_append_comm_assoc (d :: listed) _ dirs).trans (perm_middle.symm.append_left _)
    rw [hperm.nodup_iff, nodup_append]
    refine ⟨?_, hnodup, fun e he e' he' heq => ?_⟩
    · rw [nodup_reverse]
      exact nodup_looseDirs d
    · obtain ⟨p, -, rfl⟩ := mem_map.mp (mem_reverse.mp he)
      exact hfresh p.1 (heq ▸ he')
  · rcases mem_cons.mp he with rfl | he
    · simp [hdir]
    · exact hacc.exists_listed e he
  · have hold : e ∈ listed ++ d :: dirs → e = src ∨ e.dropLast ∈ d :: listed := fun he =>
      (hparent e he).imp_right (mem_cons_of_mem _)
    rcases mem_append.mp he with he | he
    · rcases mem_cons.mp he with rfl | he
      · exact hold (by simp)
      · exact hold (mem_append_left _ he)
    rcases (hmem e).mp he with ⟨n, rfl, -, -⟩ | he
    · exact .inr (by simp)
    · exact hold (mem_append_right _ (mem_cons_of_mem _ he))

/-- No more directories can be listed than the host has entries. -/
theorem Collecting.length_listed_le
    (hacc : Collecting t s src listed acc) : listed.length ≤ t.nodes.entries.length := by
  have hsubset : listed ⊆ t.nodes.keys := fun d hd => by
    obtain ⟨v, hv⟩ := Option.ne_none_iff_exists'.mp (hacc.exists_listed d hd)
    exact AList.mem_keys.mp (AList.lookup_isSome.mp (by
      rw [show t.nodes.lookup d = some v from hv]
      rfl))
  have hle := ((nodup_append.mp hacc.nodup).1.subperm hsubset).length_le
  rwa [AList.keys, List.keys, length_map] at hle

variable {handled : List Key} {path : Key}

/-- **The walk finds what is loose**, if it may list as many directories as the host has entries. -/
theorem collectDirs_dir (h : Shows t s T) (hhandled : ∀ j ∈ handled, s.get j ≠ none) {fuel : Nat}
    (hacc : Collecting t s src listed acc) (hfuel : t.nodes.entries.length < listed.length + fuel) :
    ∃ result, collectDirs s t.dir handled path .unlimited fuel acc = .ok result ∧
      ∀ j entry, (j, entry) ∈ result ↔ Loose t s src j ∧ entry = captured t j := by
  induction fuel generalizing listed acc with
  | zero => exact absurd hacc.length_listed_le (by omega)
  | succ fuel ih =>
    rw [collectDirs]
    cases hdirs : acc.dirs with
    | nil =>
      refine ⟨acc.result, rfl, fun j entry => ⟨fun hmem => hacc.result _ hmem, ?_⟩⟩
      rintro ⟨hloose, rfl⟩
      rcases hacc.complete j hloose with ⟨p, hp, rfl⟩ | ⟨d, hd, -⟩
      · rwa [← (hacc.result p hp).2]
      · rw [hdirs] at hd
        cases hd
    | cons d dirs =>
      have hdir := (hacc.dirs d (by simp [hdirs])).2
      have hlisting : ∀ p ∈ t.children d, ∃ v, t.node (d ++ [p.1]) = some v ∧
          p.2 = fileType v := fun p hp => mem_children.mp hp
      obtain ⟨acc', hacc', hresult, hdirs'⟩ := collectEntries_dir hhandled path d hlisting
        { acc with dirs }
      simp only [readDir_dir hdir, hacc', bind, Except.bind]
      exact ih (hacc.step h hdirs hresult hdirs') (by simp only [length_cons]; omega)

/-- **What a rename captures** is what is loose below the source. -/
theorem collectRealDescendants_dir (h : Shows t s T) (hhandled : ∀ j ∈ handled, s.get j ≠ none)
    (hsrc : t.node src = some .dir) :
    ∃ result, collectRealDescendants s t.dir handled src .unlimited = .ok result ∧
      ∀ j entry, (j, entry) ∈ result ↔ Loose t s src j ∧ entry = captured t j :=
  collectDirs_dir h hhandled (collecting_start hsrc) (by
    simp only [dir, length_nil]
    omega)

end Monty.Fs
