import Mathlib.Data.List.Sort
import Monty.Fs.Host
import Monty.Fs.VirtualPath
import Monty.Lib.Fallible

/-!
# The mount table

A mount answers on a virtual path, and a table of mounts routes each path of the sandbox to the
mount with the longest one. Four routines on strings have to agree for that: normalisation, the
test whether a path lies under a mount (`pathMatchesMount`), the search through the table in its
sorted order (`findMount`) and the removal of the mount's path (`stripMountPrefix`).

On component lists they all say the same: `pathMatchesMount_absolute` is the prefix order,
`stripMountPrefix_absolute` the rest behind the prefix, and `MountTable.findMount_longest` says that
the first match in the table is the longest one. What a mount holds besides its root plays no part
in routing and is the parameter `β`.
-/

namespace Monty.Fs

open Separated List Text Option

/-- The errors of building a table and of mapping a path into a mount. -/
inductive TableError
  | invalidMount (message : String)
  | overlappingMounts (virtualPath : Text) (hostPath : List Text) (existingVirtualPath : Text)
      (existingHostPath : List Text)
  | embeddedNullByte (message : String)
  | noMountPoint (path : Text)
  | pathEscape (path : Text)
  deriving DecidableEq, Repr

/-! ## Mounts -/

/-- Device and inode of an opened directory. -/
abbrev DirIdentity := UInt64 × UInt64

/-- A host directory opened once, and the virtual path it answers on. -/
structure MountRoot where
  virtualPath : Text
  /-- The components of the canonical host path. -/
  hostPath : List Text
  identity : Option DirIdentity
  dir : HostDir
  normalized : isNormalized virtualPath = true

/-- What the host answers when a directory is opened by its name. -/
structure AmbientHost where
  openAmbientDir : Text → Except String HostDir
  canonicalize : Text → Except String (List Text)
  dirIdentity : HostDir → Except String (Option DirIdentity)

def hostFailure {α : Type} (what : String) (hostPath : Text) (r : Except String α) :
    Except TableError α :=
  r.mapError fun e =>
    .invalidMount ("cannot " ++ what ++ " host path '" ++ String.ofList hostPath ++ "': " ++ e)

def MountRoot.open (host : AmbientHost) (virtualPath hostPath : Text) :
    Except TableError MountRoot :=
  if virtualPath.head? ≠ some '/' then
    .error (.invalidMount
      ("virtual path must be absolute, got: '" ++ String.ofList virtualPath ++ "'"))
  else do
    let dir ← hostFailure "open" hostPath (host.openAmbientDir hostPath)
    let canonicalHost ← hostFailure "resolve" hostPath (host.canonicalize hostPath)
    let identity ← hostFailure "stat" hostPath (host.dirIdentity dir)
    return ⟨normalizeVirtualPath virtualPath, canonicalHost, identity, dir,
      isNormalized_normalizeVirtualPath virtualPath⟩

/-- A single mount point: the opened directory and what requests on it run against. -/
structure TableMount (β : Type) where
  root : MountRoot
  backend : β

variable {β : Type}

def TableMount.virtualPath (m : TableMount β) : Text := m.root.virtualPath

def TableMount.key (m : TableMount β) : List Text := components m.virtualPath

/-- Whether two mounts collide: the same opened directory, host paths that nest or coincide, or the
same virtual path. -/
def mountsOverlap (a b : TableMount β) : Bool :=
  (a.root.identity.isSome && a.root.identity == b.root.identity)
    || b.root.hostPath.isPrefixOf a.root.hostPath
    || a.root.hostPath.isPrefixOf b.root.hostPath
    || a.virtualPath == b.virtualPath

/-! ## The table -/

/-- The mounts, longest virtual path first. -/
structure MountTable (β : Type) where
  mounts : List (TableMount β)

/-- The empty table. -/
def MountTable.new : MountTable β := ⟨[]⟩

/-- Adds a mount, behind those with a longer virtual path. -/
def MountTable.pushMount (t : MountTable β) (m : TableMount β) : Except TableError (MountTable β) :=
  match t.mounts.find? fun existing => mountsOverlap existing m with
  | some existing =>
    .error (.overlappingMounts m.virtualPath m.root.hostPath existing.virtualPath
      existing.root.hostPath)
  | none =>
    let insertAt := t.mounts.findIdx fun existing =>
      !decide (len existing.virtualPath > len m.virtualPath)
    .ok ⟨t.mounts.insertIdx insertAt m⟩

/-- The table after a sequence of pushes, if they all succeed. -/
def MountTable.build (ms : List (TableMount β)) : Except TableError (MountTable β) :=
  ms.foldlM MountTable.pushMount .new

/-- Whether a normalised path falls under a mount. -/
def pathMatchesMount (normalizedPath mountVirtualPath : Text) : Bool :=
  if mountVirtualPath = ['/'] ∨ normalizedPath = mountVirtualPath then true
  else
    -- behind that front, the byte at the mount path's byte length is this character
    mountVirtualPath.isPrefixOf normalizedPath
      && normalizedPath[mountVirtualPath.length]? == some '/'

/-- The index of the first mount the path falls under. -/
def findMount (mounts : List (TableMount β)) (virtualPath : Text) : Option Nat :=
  let normalized := normalizeVirtualPath virtualPath
  mounts.findIdx? fun m => pathMatchesMount normalized m.virtualPath

def MountTable.mountFor (t : MountTable β) (virtualPath : Text) : Option (TableMount β) :=
  (findMount t.mounts virtualPath).bind fun i => t.mounts[i]?

/-! ## Paths inside a mount -/

/-- Removes a text from the front of another. -/
def dropFront (front t : Text) : Option Text :=
  if front.isPrefixOf t then some (t.drop front.length) else none

/-- Strips a normalised mount path from a normalised sandbox path. -/
def stripMountPrefix (normalizedPath mountVirtualPath : Text) : Option Text :=
  if mountVirtualPath = ['/'] then
    some ((dropFront ['/'] normalizedPath).getD normalizedPath)
  else if normalizedPath = mountVirtualPath then some []
  else (dropFront mountVirtualPath normalizedPath).bind (dropFront ['/'])

/-- Whether a segment starts with a Windows drive. -/
def isWindowsDrivePrefix : Text → Bool
  | c :: ':' :: _ => c.isAlpha
  | _ => false

def rejectDriveOrUncSegments (relative normalizedVirtualPath : Text) : Except TableError Unit :=
  if relative.contains '\\' || (relative.splitOn '/').any isWindowsDrivePrefix then
    .error (.pathEscape normalizedVirtualPath)
  else .ok ()

def rejectNullBytes (virtualPath : Text) : Except TableError Unit :=
  if virtualPath.contains '\x00' then .error (.embeddedNullByte "embedded null byte") else .ok ()

def resolveVirtualPath (virtualPath mountVirtualPath : Text) : Except TableError Text := do
  rejectNullBytes virtualPath
  let normalized := normalizeVirtualPath virtualPath
  let relative ← (stripMountPrefix normalized mountVirtualPath).elim
    (.error (.noMountPoint virtualPath)) .ok
  rejectDriveOrUncSegments relative normalized
  return relative

def joinMount (mountVirtualPath relative : Text) : Text :=
  if relative = [] then mountVirtualPath
  else if mountVirtualPath = ['/'] then '/' :: relative
  else mountVirtualPath ++ '/' :: relative

/-! ## The string routines on component lists -/

section

variable {ks ms rs : List Text}

theorem absolute_ne_root (hms : ∀ k ∈ ms, Plain k) (h : ms ≠ []) : absolute ms ≠ ['/'] :=
  fun heq => h (absolute_inj hms (by simp) heq)

theorem ne_nil_of_absolute_eq_append (hms : ∀ k ∈ ms, Plain k) (h : ms ≠ []) {rest : Text}
    (heq : absolute ks = absolute ms ++ rest) : ks ≠ [] := by
  rintro rfl
  obtain ⟨k, ls, rfl⟩ := exists_cons_of_ne_nil h
  rw [absolute_of_ne_nil h] at heq
  simp [(hms k (by simp)).ne_nil] at heq

/-- **Being under a mount is the prefix order on components.** -/
theorem pathMatchesMount_absolute (hks : ∀ k ∈ ks, Plain k) (hms : ∀ k ∈ ms, Plain k) :
    pathMatchesMount (absolute ks) (absolute ms) = true ↔ ms <+: ks := by
  by_cases hne : ms = []
  · simp [hne, pathMatchesMount]
  rw [pathMatchesMount]
  split_ifs with h
  · obtain rfl : ks = ms := absolute_inj hks hms (h.resolve_left (absolute_ne_root hms hne))
    simp
  rw [not_or] at h
  rw [← spell_append_isPrefix_iff (fun k hk => (hms k hk).1) fun k hk => (hks k hk).1,
    ← absolute_of_ne_nil hne, Bool.and_eq_true, isPrefixOf_iff_prefix, beq_iff_eq]
  constructor
  · rintro ⟨⟨rest, hrest⟩, hnext⟩
    rw [← hrest, getElem?_append_right le_rfl, Nat.sub_self, ← head?_eq_getElem?] at hnext
    exact ⟨rest, by rw [hrest,
      absolute_of_ne_nil (ne_nil_of_absolute_eq_append hms hne hrest.symm)], .inr hnext⟩
  rintro ⟨rest, hrest, hnext⟩
  have hks' : ks ≠ [] := by
    rintro rfl
    rw [absolute_of_ne_nil hne, spell_nil, eq_comm, append_eq_nil_iff, spell_eq_nil] at hrest
    exact hne hrest.1
  rw [← absolute_of_ne_nil hks'] at hrest
  rcases hnext with rfl | hnext
  · exact absurd (by simpa using hrest) h.2
  · refine ⟨⟨rest, hrest.symm⟩, ?_⟩
    rw [hrest, getElem?_append_right le_rfl, Nat.sub_self, ← head?_eq_getElem?, hnext]

theorem dropFront_append (front t : Text) : dropFront front (front ++ t) = some t := by
  simp [dropFront]

/-- The path of a component list without its first slash. -/
theorem dropFront_absolute (rs : List Text) :
    dropFront ['/'] (absolute rs) = some (['/'].intercalate rs) := by
  by_cases h : rs = []
  · subst h
    rfl
  · rw [absolute_of_ne_nil h, spell_eq_cons_intercalate _ h]
    exact dropFront_append ['/'] _

/-- **Stripping the mount leaves the components behind it.** -/
theorem stripMountPrefix_absolute (hms : ∀ k ∈ ms, Plain k) :
    stripMountPrefix (absolute (ms ++ rs)) (absolute ms) = some (['/'].intercalate rs) := by
  by_cases hne : ms = []
  · simp [hne, stripMountPrefix, dropFront_absolute]
  by_cases hrs : rs = []
  · simp [hrs, stripMountPrefix, absolute_ne_root hms hne]
  have hsplit : absolute (ms ++ rs) = absolute ms ++ spell '/' rs := by
    rw [absolute_of_ne_nil (by simp [hne]), absolute_of_ne_nil hne, spell_append]
  have hmore : spell '/' rs ≠ [] := by rwa [Ne, spell_eq_nil]
  rw [stripMountPrefix, if_neg (absolute_ne_root hms hne), if_neg (by simp [hsplit, hmore]), hsplit,
    dropFront_append, bind_some, ← absolute_of_ne_nil hrs, dropFront_absolute]

theorem intercalate_ne_nil (hrs : ∀ k ∈ rs, Plain k) (h : rs ≠ []) : ['/'].intercalate rs ≠ [] := by
  intro hnil
  have := congrArg (splitOn '/') hnil
  rw [splitOn_intercalate '/' (fun k hk => (hrs k hk).1) h] at this
  exact (hrs [] (by simp [this])).ne_nil rfl

theorem joinMount_absolute (hms : ∀ k ∈ ms, Plain k) (hrs : ∀ k ∈ rs, Plain k) :
    joinMount (absolute ms) (['/'].intercalate rs) = absolute (ms ++ rs) := by
  by_cases hrs' : rs = []
  · simp [hrs', joinMount]
  rw [joinMount, if_neg (intercalate_ne_nil hrs hrs'), ← spell_eq_cons_intercalate _ hrs']
  by_cases hne : ms = []
  · rw [if_pos (by simp [hne]), hne, nil_append, absolute_of_ne_nil hrs']
  · rw [if_neg (absolute_ne_root hms hne), absolute_of_ne_nil hne,
      absolute_of_ne_nil (by simp [hne]), spell_append]

theorem len_absolute_lt (hks : ∀ k ∈ ks, Plain k) (h : ms <+: ks) (hne : ms ≠ ks) :
    len (absolute ms) < len (absolute ks) := by
  obtain ⟨rs, rfl⟩ := h
  have hrs : rs ≠ [] := by
    rintro rfl
    simp at hne
  have hne' : ms ++ rs ≠ [] := by simp [hrs]
  rw [absolute_of_ne_nil hne', spell_append]
  by_cases hms : ms = []
  · subst hms
    obtain ⟨k, ls, rfl⟩ := exists_cons_of_ne_nil hrs
    have hk : k ++ spell '/' ls ≠ [] := by simp [(hks k (by simp)).ne_nil]
    exact len_lt_of_append hk
  · rw [absolute_of_ne_nil hms]
    exact len_lt_of_append (by rwa [Ne, spell_eq_nil])

end

/-! ## Building a table -/

theorem TableMount.exists_absolute (m : TableMount β) :
    (∀ k ∈ m.key, Plain k) ∧ m.virtualPath = absolute m.key := by
  obtain ⟨ks, hks, heq⟩ := isNormalized_iff.mp m.root.normalized
  have hkey : m.key = ks := by rw [key, virtualPath, heq, components_absolute hks]
  exact ⟨hkey ▸ hks, hkey ▸ heq⟩

theorem mountsOverlap_comm (a b : TableMount β) : mountsOverlap a b = mountsOverlap b a := by
  have hid : (a.root.identity.isSome && a.root.identity == b.root.identity)
      = (b.root.identity.isSome && b.root.identity == a.root.identity) := by
    rw [Bool.eq_iff_iff]
    simp only [Bool.and_eq_true, beq_iff_eq]
    constructor
    · rintro ⟨hsome, heq⟩
      exact ⟨heq ▸ hsome, heq.symm⟩
    · rintro ⟨hsome, heq⟩
      exact ⟨heq ▸ hsome, heq.symm⟩
  rw [mountsOverlap, mountsOverlap, hid, Bool.or_right_comm _ (b.root.hostPath.isPrefixOf _),
    Bool.beq_comm (a := a.virtualPath)]

instance : Std.Symm fun a b : TableMount β => mountsOverlap a b = false :=
  ⟨fun _ _ h => by rwa [mountsOverlap_comm]⟩

theorem ne_of_not_mountsOverlap {a b : TableMount β} (h : mountsOverlap a b = false) :
    a.key ≠ b.key := by
  intro hkey
  have : a.virtualPath = b.virtualPath := by
    rw [a.exists_absolute.2, b.exists_absolute.2, hkey]
  simp [mountsOverlap, this] at h

namespace MountTable

/-- The order of the table: the first virtual path is at least as long as the second. -/
def AtLeast (a b : TableMount β) : Prop := len b.virtualPath ≤ len a.virtualPath

instance : DecidableRel (AtLeast (β := β)) := fun _ _ => inferInstanceAs (Decidable (_ ≤ _))

instance : Std.Total (AtLeast (β := β)) := ⟨fun _ _ => Nat.le_total _ _⟩

instance : IsTrans (TableMount β) AtLeast := ⟨fun _ _ _ h h' => Nat.le_trans h' h⟩

theorem insertIdx_findIdx (l : List (TableMount β)) (m : TableMount β) :
    l.insertIdx (l.findIdx fun e => !decide (len e.virtualPath > len m.virtualPath)) m
      = l.orderedInsert AtLeast m := by
  induction l with
  | nil => rfl
  | cons e l ih =>
    by_cases h : AtLeast m e
    · have : ¬ len e.virtualPath > len m.virtualPath := Nat.not_lt.mpr h
      rw [orderedInsert_cons, if_pos h, findIdx_cons]
      simp [this]
    · have hgt : len e.virtualPath > len m.virtualPath := Nat.not_le.mp h
      rw [orderedInsert_cons, if_neg h, findIdx_cons, ← ih]
      simp [hgt]

variable {m : TableMount β}

theorem pushMount_eq_ok {t t' : MountTable β} : t.pushMount m = .ok t' ↔
      (∀ e ∈ t.mounts, mountsOverlap e m = false) ∧ t' = ⟨t.mounts.orderedInsert AtLeast m⟩ := by
  rw [pushMount]
  cases h : t.mounts.find? fun e => mountsOverlap e m with
  | none =>
    rw [find?_eq_none] at h
    simp only [insertIdx_findIdx, Except.ok.injEq]
    refine ⟨fun heq => ⟨fun e he => by simpa using h e he, heq.symm⟩, fun heq => heq.2.symm⟩
  | some e =>
    simp only [reduceCtorEq, false_iff]
    rintro ⟨hall, -⟩
    have := hall e (mem_of_find?_eq_some h)
    rw [find?_some h] at this
    exact absurd this (by decide)

variable {ms : List (TableMount β)}

/-- What a sequence of pushes leaves: the mounts there were and the new ones, sorted. -/
theorem foldlM_pushMount {t t' : MountTable β}
    (h : ms.foldlM pushMount t = .ok t') (hsorted : t.mounts.Pairwise AtLeast) :
    t'.mounts.Perm (t.mounts ++ ms) ∧ t'.mounts.Pairwise AtLeast := by
  induction ms generalizing t with
  | nil =>
    obtain rfl : t = t' := by simpa [pure, Except.pure] using h
    exact ⟨by simp, hsorted⟩
  | cons m ms ih =>
    obtain ⟨t1, h1, h⟩ := Fallible.bind_eq_ok.mp h
    obtain ⟨-, rfl⟩ := pushMount_eq_ok.mp h1
    obtain ⟨hperm, hsorted'⟩ := ih h (hsorted.orderedInsert m _)
    refine ⟨hperm.trans ?_, hsorted'⟩
    exact ((perm_orderedInsert AtLeast m t.mounts).append_right ms).trans perm_middle.symm

/-- A sequence of pushes succeeds if no two of the mounts overlap. -/
theorem exists_foldlM_pushMount {t : MountTable β} :
    (∃ t', ms.foldlM pushMount t = .ok t') ↔ (∀ m ∈ ms, ∀ e ∈ t.mounts, mountsOverlap e m = false) ∧
        ms.Pairwise fun a b => mountsOverlap a b = false := by
  induction ms generalizing t with
  | nil => simp [pure, Except.pure]
  | cons m ms ih =>
    have hstep : (∃ t', (m :: ms).foldlM pushMount t = .ok t') ↔
        (∀ e ∈ t.mounts, mountsOverlap e m = false) ∧
          ∃ t', ms.foldlM pushMount ⟨t.mounts.orderedInsert AtLeast m⟩ = .ok t' := by
      simp only [foldlM_cons, Fallible.bind_eq_ok, pushMount_eq_ok]
      constructor
      · rintro ⟨t', t1, ⟨hall, rfl⟩, h⟩
        exact ⟨hall, t', h⟩
      · rintro ⟨hall, t', h⟩
        exact ⟨t', _, ⟨hall, rfl⟩, h⟩
    rw [hstep, ih, pairwise_cons]
    simp only [mem_orderedInsert, mem_cons, forall_eq_or_imp]
    constructor
    · rintro ⟨hm, hms, hpair⟩
      exact ⟨⟨hm, fun a ha => (hms a ha).2⟩, fun a ha => (hms a ha).1, hpair⟩
    · rintro ⟨⟨hm, hms⟩, hfirst, hpair⟩
      exact ⟨hm, fun a ha => ⟨hfirst a ha, hms a ha⟩, hpair⟩

variable {ms : List (TableMount β)} {t : MountTable β} (h : build ms = .ok t)

include h in
theorem build_perm : t.mounts.Perm ms := by
  simpa [new] using (foldlM_pushMount h .nil).1

include h in
theorem build_sorted : t.mounts.Pairwise AtLeast := (foldlM_pushMount h .nil).2

theorem exists_build :
    (∃ t, build ms = .ok t) ↔ ms.Pairwise fun a b => mountsOverlap a b = false := by
  rw [build, exists_foldlM_pushMount]
  simp [new]

/-! ## Routing -/

/-- The mount with the longest virtual path the path lies under. -/
structure Longest (ms : List (TableMount β)) (path : Text) (m : TableMount β) : Prop where
  mem : m ∈ ms
  under : m.key <+: components (normalizeVirtualPath path)
  longest : ∀ m' ∈ ms, m'.key <+: components (normalizeVirtualPath path) → m' ≠ m →
    m'.key.length < m.key.length

variable {path : Text}

theorem Longest.unique {m' : TableMount β} (h : Longest ms path m)
    (h' : Longest ms path m') : m = m' := by
  by_contra hne
  have hlt := h.longest m' h'.mem h'.under (.symm hne)
  exact Nat.lt_asymm hlt (h'.longest m h.mem h.under hne)

theorem pathMatchesMount_iff (path : Text) (m : TableMount β) :
    pathMatchesMount (normalizeVirtualPath path) m.virtualPath = true ↔
      m.key <+: components (normalizeVirtualPath path) := by
  rw [m.exists_absolute.2, normalizeVirtualPath_eq,
    components_absolute (resolveSegments_splitOn_plain path),
    pathMatchesMount_absolute (resolveSegments_splitOn_plain path) m.exists_absolute.1]

theorem findMount_eq_none : findMount t.mounts path = none ↔
      ∀ m ∈ t.mounts, ¬ m.key <+: components (normalizeVirtualPath path) := by
  simp only [findMount, findIdx?_eq_none_iff, ← pathMatchesMount_iff, Bool.not_eq_true]

theorem mountFor_eq_find? (path : Text) : t.mountFor path =
      t.mounts.find? fun m => pathMatchesMount (normalizeVirtualPath path) m.virtualPath := by
  rw [mountFor, findMount]
  cases h : t.mounts.findIdx? fun m =>
      pathMatchesMount (normalizeVirtualPath path) m.virtualPath with
  | none =>
    rw [findIdx?_eq_none_iff] at h
    exact (find?_eq_none.mpr fun m hm => by simp [h m hm]).symm
  | some i =>
    obtain ⟨hi, hp, hbefore⟩ := findIdx?_eq_some_iff_getElem.mp h
    rw [bind_some, getElem?_eq_getElem hi, eq_comm, find?_eq_some_iff_getElem]
    exact ⟨hp, i, hi, rfl, fun j hj => by simpa using hbefore j hj⟩

include h in
/-- **The first match in the table is the longest one.** -/
theorem mountFor_longest (hm : t.mountFor path = some m) : Longest ms path m := by
  rw [mountFor_eq_find?, find?_eq_some_iff_append] at hm
  obtain ⟨hmatch, before, after, hsplit, hbefore⟩ := hm
  have hmem {e : TableMount β} : e ∈ ms ↔ e ∈ t.mounts := (build_perm h).mem_iff.symm
  have hunder := (pathMatchesMount_iff path m).mp hmatch
  refine ⟨hmem.mpr (by simp [hsplit]), hunder, fun e he hunder' hne => ?_⟩
  have hnot : e ∉ before := fun hin => by
    simpa [(pathMatchesMount_iff path e).mpr hunder'] using hbefore e hin
  have hafter : e ∈ after := by
    rw [hmem, hsplit] at he
    simpa [hnot, hne] using he
  have hle : AtLeast m e := by
    have hsorted := build_sorted h
    rw [hsplit, pairwise_append, pairwise_cons] at hsorted
    exact hsorted.2.1.1 e hafter
  have hkeys : m.key ≠ e.key := by
    have hpair := exists_build.mp ⟨t, h⟩
    exact ne_of_not_mountsOverlap (hpair.forall (hmem.mpr (by simp [hsplit])) he (.symm hne))
  -- Both are prefixes of one path, so one continues the other.
  rcases prefix_or_prefix_of_prefix hunder hunder' with hpre | hpre
  · have hlt := len_absolute_lt e.exists_absolute.1 hpre hkeys
    rw [← m.exists_absolute.2, ← e.exists_absolute.2] at hlt
    exact absurd hle (Nat.not_le.mpr hlt)
  · exact lt_of_le_of_ne hpre.length_le fun hlen => hkeys (hpre.eq_of_length hlen).symm

include h in
theorem exists_mountFor_of_under
    (hm : m ∈ ms) (hunder : m.key <+: components (normalizeVirtualPath path)) :
    ∃ m', t.mountFor path = some m' := by
  rw [mountFor_eq_find?, ← isSome_iff_exists, find?_isSome]
  exact ⟨m, (build_perm h).mem_iff.mpr hm, (pathMatchesMount_iff path m).mpr hunder⟩

include h in
theorem mountFor_eq_some : t.mountFor path = some m ↔ Longest ms path m := by
  refine ⟨mountFor_longest h, fun hm => ?_⟩
  obtain ⟨m', hm'⟩ := exists_mountFor_of_under h hm.mem hm.under
  rw [hm', (mountFor_longest h hm').unique hm]

include h in
/-- The order of the pushes plays no part. -/
theorem build_of_perm {ms' : List (TableMount β)} (hperm : ms'.Perm ms) :
    ∃ t', build ms' = .ok t' ∧ ∀ path, t'.mountFor path = t.mountFor path := by
  have hpair := exists_build.mp ⟨t, h⟩
  obtain ⟨t', ht'⟩ := exists_build.mpr
    ((hperm.pairwise_iff fun hab => by rwa [mountsOverlap_comm]).mpr hpair)
  refine ⟨t', ht', fun path => ext fun m => ?_⟩
  rw [mountFor_eq_some ht', mountFor_eq_some h]
  constructor
  · rintro ⟨hmem, hunder, hlong⟩
    exact ⟨hperm.mem_iff.mp hmem, hunder, fun e he => hlong e (hperm.mem_iff.mpr he)⟩
  · rintro ⟨hmem, hunder, hlong⟩
    exact ⟨hperm.mem_iff.mpr hmem, hunder, fun e he => hlong e (hperm.mem_iff.mp he)⟩

/-! ## Staying inside the mount -/

/-- What is left of a path inside a mount: plain components, which joined to the mount give the
path back. -/
theorem exists_stripMountPrefix (hunder : m.key <+: components (normalizeVirtualPath path)) :
    ∃ rs, (∀ k ∈ rs, Plain k) ∧
      stripMountPrefix (normalizeVirtualPath path) m.virtualPath = some (['/'].intercalate rs) ∧
      joinMount m.virtualPath (['/'].intercalate rs) = normalizeVirtualPath path := by
  have hplain := resolveSegments_splitOn_plain path
  rw [normalizeVirtualPath_eq, components_absolute hplain] at hunder
  obtain ⟨rs, hrs⟩ := hunder
  have hrsPlain : ∀ k ∈ rs, Plain k := fun k hk => hplain k (by simp [← hrs, hk])
  refine ⟨rs, hrsPlain, ?_, ?_⟩
  · rw [normalizeVirtualPath_eq, ← hrs, m.exists_absolute.2,
      stripMountPrefix_absolute m.exists_absolute.1]
  · rw [normalizeVirtualPath_eq, ← hrs, m.exists_absolute.2,
      joinMount_absolute m.exists_absolute.1 hrsPlain]

theorem segments_intercalate {rs : List Text} (hrs : ∀ k ∈ rs, Plain k) :
    ['/'].intercalate rs = [] ∨
      ∀ k ∈ (['/'].intercalate rs).splitOn '/', k ≠ [] ∧ k ≠ ['.'] ∧ k ≠ ['.', '.'] := by
  by_cases h : rs = []
  · exact .inl (by simp [h])
  · refine .inr fun k hk => ?_
    rw [splitOn_intercalate '/' (fun k hk => (hrs k hk).1) h] at hk
    simpa [isDots] using (hrs k hk).2

/-- A mount does not match a path that goes on within the mount's last component. -/
theorem not_under_of_continues {c : Char} {rest : Text}
    (hc : c ≠ '/') (hroot : m.virtualPath ≠ ['/'])
    (hpath : normalizeVirtualPath path = m.virtualPath ++ c :: rest) :
    ¬ m.key <+: components (normalizeVirtualPath path) := by
  rw [← pathMatchesMount_iff, pathMatchesMount, if_neg (by simp [hroot, hpath]), hpath]
  simp [hc]

/-- The test and the removal agree, on all strings: there is something to strip off just the paths
that match. -/
theorem isSome_stripMountPrefix (path mountPath : Text) :
    (stripMountPrefix path mountPath).isSome = pathMatchesMount path mountPath := by
  rw [stripMountPrefix, pathMatchesMount]
  by_cases hroot : mountPath = ['/']
  · simp [hroot]
  by_cases heq : path = mountPath
  · simp [hroot, heq]
  rw [if_neg hroot, if_neg heq, if_neg (by simp [hroot, heq]), dropFront]
  by_cases hfront : mountPath <+: path
  · obtain ⟨rest, rfl⟩ := hfront
    cases rest with
    | nil => simp [dropFront]
    | cons c rest =>
      by_cases hc : c = '/'
      · simp [dropFront, hc]
      · simp [dropFront, hc, Ne.symm hc]
  · simp [hfront]

/-- A path that is resolved into a mount stays in it. -/
theorem resolveVirtualPath_confined {relative : Text}
    (h : resolveVirtualPath path m.virtualPath = .ok relative) :
    (relative = [] ∨ ∀ k ∈ relative.splitOn '/', k ≠ [] ∧ k ≠ ['.'] ∧ k ≠ ['.', '.']) ∧
      joinMount m.virtualPath relative = normalizeVirtualPath path := by
  simp only [resolveVirtualPath, Fallible.bind_eq_ok] at h
  obtain ⟨-, -, r, hr, -, -, hret⟩ := h
  obtain rfl : r = relative := by simpa [pure, Except.pure] using hret
  have hstrip : stripMountPrefix (normalizeVirtualPath path) m.virtualPath = some r := by
    cases hs : stripMountPrefix (normalizeVirtualPath path) m.virtualPath with
    | none => simp [hs] at hr
    | some r' => simpa [hs] using hr
  have hunder : m.key <+: components (normalizeVirtualPath path) := by
    rw [← pathMatchesMount_iff, ← isSome_stripMountPrefix, hstrip, isSome_some]
  obtain ⟨rs, hrs, hstrip', hjoin⟩ := exists_stripMountPrefix hunder
  obtain rfl : ['/'].intercalate rs = r := mem_unique hstrip' hstrip
  exact ⟨segments_intercalate hrs, hjoin⟩

/-- **Routing is confined and does not depend on the order of the mounts.**  In every table that a
sequence of pushes builds, a path is routed to the mount with the longest virtual path it lies
under, if there is one, and to the same one in whatever order the mounts were pushed. What is left
of the path inside that mount has no empty, `.` or `..` component and joined to the mount's virtual
path gives the normalised path back; and a mount at `/data` is not one that `/database` lies
under. -/
theorem build_routes {ms : List (TableMount β)} {t : MountTable β} (hbuild : build ms = .ok t) :
    (∀ ms' : List (TableMount β), ms'.Perm ms →
      ∃ t', build ms' = .ok t' ∧ ∀ path, t'.mountFor path = t.mountFor path) ∧
    ∀ path, (findMount t.mounts path = none ↔
        ∀ m ∈ ms, ¬ m.key <+: components (normalizeVirtualPath path)) ∧
      ∀ i, findMount t.mounts path = some i →
        ∃ m, t.mounts[i]? = some m ∧ t.mountFor path = some m ∧ Longest ms path m ∧
          (∀ c rest, c ≠ '/' → m.virtualPath ≠ ['/'] →
            normalizeVirtualPath path ≠ m.virtualPath ++ c :: rest) ∧
          ∃ relative, stripMountPrefix (normalizeVirtualPath path) m.virtualPath = some relative ∧
            (relative = [] ∨ ∀ k ∈ relative.splitOn '/', k ≠ [] ∧ k ≠ ['.'] ∧ k ≠ ['.', '.']) ∧
            joinMount m.virtualPath relative = normalizeVirtualPath path := by
  refine ⟨fun ms' hperm => build_of_perm hbuild hperm, fun path => ⟨?_, fun i hi => ?_⟩⟩
  · simp only [findMount_eq_none, (build_perm hbuild).mem_iff]
  have hlt : i < t.mounts.length := (findIdx?_eq_some_iff_getElem.mp hi).1
  have hroute : t.mountFor path = some t.mounts[i] := by
    rw [mountFor, hi, Option.bind_some, getElem?_eq_getElem hlt]
  have hlong := mountFor_longest hbuild hroute
  obtain ⟨rs, hrs, hstrip, hjoin⟩ := exists_stripMountPrefix hlong.under
  exact ⟨t.mounts[i], getElem?_eq_getElem hlt, hroute, hlong,
    fun c rest hc hroot hpath => not_under_of_continues hc hroot hpath hlong.under,
    _, hstrip, segments_intercalate hrs, hjoin⟩

def bareDir : HostDir where
  metadata _ := .error ⟨.notFound, "No such file or directory", true⟩
  symlinkMetadata _ := .error ⟨.notFound, "No such file or directory", true⟩
  openDir _ := .ok ()
  readDir _ := .ok []
  openFile _ := .error ⟨.notFound, "No such file or directory", true⟩
  size := 1

/-- The root of the sandbox on `/srv` and `/data` on `/var`. -/
def rootAndData : List (TableMount Unit) :=
  [⟨⟨['/'], [['s', 'r', 'v']], none, bareDir, by decide⟩, ()⟩,
    ⟨⟨['/', 'd', 'a', 't', 'a'], [['v', 'a', 'r']], none, bareDir, by decide⟩, ()⟩]

/-- `/data/../datab` -/
def besideData : Text := ['/', 'd', 'a', 't', 'a', '/', '.', '.', '/', 'd', 'a', 't', 'a', 'b']

theorem build_routes_rootAndData : build rootAndData = .ok ⟨rootAndData.reverse⟩ ∧
      ∃ m, (⟨rootAndData.reverse⟩ : MountTable Unit).mountFor besideData = some m ∧
        Longest rootAndData besideData m := by
  have hbuild : build rootAndData = .ok ⟨rootAndData.reverse⟩ := rfl
  obtain ⟨m, -, hm, hlong, -⟩ := ((build_routes hbuild).2 besideData).2 1 (by decide)
  exact ⟨hbuild, m, hm, hlong⟩

end MountTable

end Monty.Fs
