import Mathlib.Algebra.GroupWithZero.Nat
import Monty.Lib.Separated

/-!
# Virtual paths

The lexical normalisation the interpreter and the hosts share: an absolute POSIX path without `.`
and with `..` resolved, stopping at the root. A path is the list of its characters here, since that
is what the routines below look at; `Text.len` is its length in bytes.

A normalised path is `absolute ks` for a list `ks` of plain components (`isNormalized_iff`), and
`normalizeVirtualPath_eq` says which: the segments of the path, read from left to right with `..`
taking the last one away (`resolveSegments`).
-/

namespace Monty.Fs

open Separated List

/-- A string, as its characters. -/
abbrev Text := List Char

/-- The length in bytes. -/
def Text.len (t : Text) : Nat := (t.map Char.utf8Size).sum

theorem Text.len_append (t u : Text) : Text.len (t ++ u) = Text.len t + Text.len u := by
  simp [Text.len]

theorem Text.len_lt_of_append {t u : Text} (h : u ≠ []) : Text.len t < Text.len (t ++ u) := by
  obtain ⟨c, cs, rfl⟩ := exists_cons_of_ne_nil h
  have := c.utf8Size_pos
  rw [Text.len_append]
  simp only [Text.len, map_cons, sum_cons]
  omega

/-- Where a character occurs last. -/
def rfind (c : Char) (t : Text) : Option Nat := (t.reverse.idxOf? c).map fun i => t.length - 1 - i

/-- The segments that stand for no component of their own. -/
def isDots (segment : Text) : Bool := segment = [] ∨ segment = ['.'] ∨ segment = ['.', '.']

/-- Recognises paths that can be returned as they are. -/
def isNormalized (path : Text) : Bool :=
  path = ['/'] ∨ (path.head? = some '/' ∧ path.getLast? ≠ some '/' ∧
    ∀ segment ∈ (path.splitOn '/').tail, isDots segment = false)

/-- What one segment does to the path built so far. -/
def pushSegment (out segment : Text) : Text :=
  if segment = [] ∨ segment = ['.'] then out
  else if segment = ['.', '.'] then out.take ((rfind '/' out).getD 0)
  else out ++ '/' :: segment

/-- The path built anew, one segment after the other. -/
def rewriteVirtualPath (path : Text) : Text :=
  let out := (path.splitOn '/').foldl pushSegment []
  if out = [] then ['/'] else out

/-- The absolute POSIX path with `.` removed and `..` resolved. -/
def normalizeVirtualPath (path : Text) : Text :=
  if isNormalized path then path else rewriteVirtualPath path

/-! ## Components -/

/-- A component of a path: a nonempty segment other than `.` and `..`. -/
def Plain (k : Text) : Prop := '/' ∉ k ∧ isDots k = false

instance (k : Text) : Decidable (Plain k) := inferInstanceAs (Decidable (_ ∧ _))

theorem Plain.ne_nil {k : Text} (h : Plain k) : k ≠ [] := by
  rintro rfl
  exact absurd h.2 (by decide)

def components (path : Text) : List Text := (path.splitOn '/').filter (· ≠ [])

/-- The absolute path of the components. -/
def absolute (ks : List Text) : Text := if ks = [] then ['/'] else spell '/' ks

@[simp]
theorem absolute_nil : absolute [] = ['/'] := rfl

variable {ks : List Text}

theorem absolute_of_ne_nil (h : ks ≠ []) : absolute ks = spell '/' ks := if_neg h

theorem filter_ne_nil_of_plain (h : ∀ k ∈ ks, Plain k) : ks.filter (· ≠ []) = ks :=
  filter_eq_self.mpr fun k hk => by simpa using (h k hk).ne_nil

theorem components_absolute (h : ∀ k ∈ ks, Plain k) : components (absolute ks) = ks := by
  rw [components]
  by_cases hks : ks = []
  · subst hks
    decide
  · rw [absolute_of_ne_nil hks, splitOn_spell fun k hk => (h k hk).1]
    simpa using filter_ne_nil_of_plain h

variable (hks : ∀ k ∈ ks, Plain k)

include hks in
theorem absolute_inj {ls : List Text} (hls : ∀ k ∈ ls, Plain k)
    (h : absolute ks = absolute ls) : ks = ls := by
  rw [← components_absolute hks, h, components_absolute hls]

/-! ## Recognising a normalised path -/

theorem getLast?_spell_ne (h : ∀ k ∈ ks, Plain k) : (spell '/' ks).getLast? ≠ some '/' := by
  rcases eq_nil_or_concat ks with rfl | ⟨ls, k, rfl⟩
  · simp
  have hk : Plain k := h k (by simp)
  intro hlast
  rw [concat_eq_append, spell_append, spell_cons, spell_nil, append_nil,
    List.getLast?_append, List.getLast?_cons, List.getLast?_eq_some_getLast hk.ne_nil] at hlast
  simp only [Option.getD_some, Option.some_or, Option.some.injEq] at hlast
  exact hk.1 (hlast ▸ getLast_mem hk.ne_nil)

/-- **A path is normalised when it is the absolute path of plain components.** -/
theorem isNormalized_iff {path : Text} :
    isNormalized path = true ↔ ∃ ks, (∀ k ∈ ks, Plain k) ∧ path = absolute ks := by
  rw [isNormalized, decide_eq_true_iff]
  constructor
  · rintro (rfl | ⟨hhead, hlast, hseg⟩)
    · exact ⟨[], by simp, rfl⟩
    obtain ⟨q, rfl⟩ : ∃ q, path = '/' :: q := by
      cases path with
      | nil => simp at hhead
      | cons c q => exact ⟨q, by simpa using hhead⟩
    refine ⟨q.splitOn '/', fun k hk => ⟨not_mem_of_mem_splitOn _ hk, hseg k hk⟩, ?_⟩
    rw [absolute_of_ne_nil (splitOn_ne_nil _ q), spell_splitOn]
  rintro ⟨ks, hks, rfl⟩
  by_cases hne : ks = []
  · exact .inl (by simp [hne])
  refine .inr ⟨?_, ?_, ?_⟩
  · obtain ⟨k, ls, rfl⟩ := exists_cons_of_ne_nil hne
    rw [absolute_of_ne_nil hne, spell_cons, List.head?_cons]
  · rw [absolute_of_ne_nil hne]
    exact getLast?_spell_ne hks
  · rw [absolute_of_ne_nil hne, splitOn_spell fun k hk => (hks k hk).1]
    exact fun k hk => (hks k hk).2

/-! ## What normalisation computes -/

/-- What one segment does to the components collected so far. -/
def resolveSegment (ks : List Text) (segment : Text) : List Text :=
  if segment = [] ∨ segment = ['.'] then ks
  else if segment = ['.', '.'] then ks.dropLast
  else ks ++ [segment]

/-- The components that are left when `.` is dropped and `..` takes the last one away. -/
def resolveSegments (segments : List Text) : List Text := segments.foldl resolveSegment []

include hks in
theorem resolveSegment_plain {segment : Text}
    (hs : '/' ∉ segment) : ∀ k ∈ resolveSegment ks segment, Plain k := by
  intro k hk
  rw [resolveSegment] at hk
  split_ifs at hk with h1 h2
  · exact hks k hk
  · exact hks k (mem_of_mem_dropLast hk)
  rcases mem_append.mp hk with hk | hk
  · exact hks k hk
  rw [mem_singleton] at hk
  subst hk
  refine ⟨hs, ?_⟩
  rw [isDots, decide_eq_false_iff_not, not_or, not_or]
  exact ⟨fun h => h1 (.inl h), fun h => h1 (.inr h), h2⟩

variable {segments : List Text}

include hks in
theorem foldl_resolveSegment_plain
    (hs : ∀ k ∈ segments, '/' ∉ k) : ∀ k ∈ segments.foldl resolveSegment ks, Plain k := by
  induction segments generalizing ks with
  | nil => exact hks
  | cons k segments ih =>
    exact ih (resolveSegment_plain hks (hs k (by simp))) fun l hl => hs l (by simp [hl])

theorem resolveSegments_splitOn_plain (path : Text) :
    ∀ k ∈ resolveSegments (path.splitOn '/'), Plain k :=
  foldl_resolveSegment_plain (by simp) fun _ hk => not_mem_of_mem_splitOn _ hk

theorem foldl_resolveSegment_of_plain (hs : ∀ k ∈ segments, Plain k) :
    segments.foldl resolveSegment ks = ks ++ segments := by
  induction segments generalizing ks with
  | nil => simp
  | cons k segments ih =>
    have hk : isDots k = false := (hs k (by simp)).2
    rw [isDots, decide_eq_false_iff_not, not_or, not_or] at hk
    rw [foldl_cons, resolveSegment, if_neg (by tauto), if_neg hk.2.2,
      ih fun l hl => hs l (by simp [hl])]
    simp

theorem rfind_spell_concat {k : Text} (hk : '/' ∉ k) :
    rfind '/' (spell '/' (ks ++ [k])) = some (spell '/' ks).length := by
  have hk' : '/' ∉ k.reverse := by simpa using hk
  have hidx : (k.reverse ++ '/' :: (spell '/' ks).reverse).idxOf? '/' = some k.length := by
    have hnone := List.idxOf?_eq_none_iff.mpr hk'
    rw [List.idxOf?] at hnone ⊢
    rw [List.findIdx?_append, hnone]
    simp [List.findIdx?_cons]
  rw [rfind]
  simp only [spell_append, spell_cons, spell_nil, append_nil, reverse_append,
    reverse_cons, append_assoc, singleton_append, hidx, Option.map_some,
    length_append, length_cons, Option.some.injEq]
  omega

include hks in
/-- The loop keeps the path of the components collected so far. -/
theorem pushSegment_spell (segment : Text) :
    pushSegment (spell '/' ks) segment = spell '/' (resolveSegment ks segment) := by
  rw [pushSegment, resolveSegment]
  split_ifs
  · rfl
  · rcases eq_nil_or_concat ks with rfl | ⟨ls, k, rfl⟩
    · simp
    · rw [concat_eq_append] at hks ⊢
      rw [rfind_spell_concat (hks k (by simp)).1, dropLast_concat, spell_append]
      simp
  · simp

include hks in
theorem foldl_pushSegment_spell (hs : ∀ k ∈ segments, '/' ∉ k) :
    segments.foldl pushSegment (spell '/' ks) = spell '/' (segments.foldl resolveSegment ks) := by
  induction segments generalizing ks with
  | nil => rfl
  | cons k segments ih =>
    rw [foldl_cons, foldl_cons, pushSegment_spell hks,
      ih (resolveSegment_plain hks (hs k (by simp))) fun l hl => hs l (by simp [hl])]

include hks in
theorem resolveSegments_absolute : resolveSegments ((absolute ks).splitOn '/') = ks := by
  by_cases hne : ks = []
  · subst hne
    decide
  · rw [absolute_of_ne_nil hne, splitOn_spell fun k hk => (hks k hk).1, resolveSegments,
      foldl_cons, foldl_resolveSegment_of_plain hks]
    simp [resolveSegment]

theorem rewriteVirtualPath_eq (path : Text) :
    rewriteVirtualPath path = absolute (resolveSegments (path.splitOn '/')) := by
  have hfold : (path.splitOn '/').foldl pushSegment (spell '/' []) =
      spell '/' ((path.splitOn '/').foldl resolveSegment []) :=
    foldl_pushSegment_spell (by simp) fun _ hk => not_mem_of_mem_splitOn _ hk
  rw [spell_nil] at hfold
  rw [rewriteVirtualPath]
  simp only [hfold, spell_eq_nil]
  rfl

/-- **Normalisation resolves the segments of the path.** -/
theorem normalizeVirtualPath_eq (path : Text) :
    normalizeVirtualPath path = absolute (resolveSegments (path.splitOn '/')) := by
  rw [normalizeVirtualPath]
  split_ifs with hnorm
  · obtain ⟨ks, hks, rfl⟩ := isNormalized_iff.mp hnorm
    rw [resolveSegments_absolute hks]
  · exact rewriteVirtualPath_eq path

theorem isNormalized_normalizeVirtualPath (path : Text) :
    isNormalized (normalizeVirtualPath path) = true :=
  isNormalized_iff.mpr ⟨_, resolveSegments_splitOn_plain path, normalizeVirtualPath_eq path⟩

/-! ## Laws -/

theorem normalizeVirtualPath_of_isNormalized {path : Text} (h : isNormalized path = true) :
    normalizeVirtualPath path = path := if_pos h

theorem absolute_eq_cons_intercalate (ks : List Text) :
    absolute ks = '/' :: ['/'].intercalate ks := by
  by_cases hks : ks = []
  · rw [hks]
    rfl
  · rw [absolute_of_ne_nil hks, spell_eq_cons_intercalate _ hks]

theorem resolveSegments_normalizeVirtualPath (path : Text) :
    resolveSegments ((normalizeVirtualPath path).splitOn '/') =
      resolveSegments (path.splitOn '/') := by
  rw [normalizeVirtualPath_eq, resolveSegments_absolute (resolveSegments_splitOn_plain path)]

/-- A path may be normalised up to any separator first. -/
theorem normalizeVirtualPath_append (a b : Text) : normalizeVirtualPath (a ++ '/' :: b) =
      normalizeVirtualPath (normalizeVirtualPath a ++ '/' :: b) := by
  have hjoin : ∀ p : Text, resolveSegments ((p ++ '/' :: b).splitOn '/') =
      (b.splitOn '/').foldl resolveSegment (resolveSegments (p.splitOn '/')) := fun p => by
    rw [splitOn_append_cons, resolveSegments, foldl_append]
    rfl
  rw [normalizeVirtualPath_eq, normalizeVirtualPath_eq (normalizeVirtualPath a ++ '/' :: b), hjoin,
    hjoin, resolveSegments_normalizeVirtualPath]

/-- The laws of normalisation: it is the fold of the segments, its result is normalised, paths that
are returned as they are would be rewritten to themselves, and it commutes with going on. -/
theorem normalizeVirtualPath_laws : (∀ path, normalizeVirtualPath path =
      '/' :: ['/'].intercalate (resolveSegments (path.splitOn '/'))) ∧
    (∀ path, (normalizeVirtualPath path).head? = some '/' ∧ (normalizeVirtualPath path = ['/'] ∨
        (normalizeVirtualPath path).getLast? ≠ some '/' ∧
          ∀ segment ∈ ((normalizeVirtualPath path).splitOn '/').tail,
            segment ≠ [] ∧ segment ≠ ['.'] ∧ segment ≠ ['.', '.'])) ∧
    (∀ path, normalizeVirtualPath path =
        (if isNormalized path then path else rewriteVirtualPath path) ∧
      (isNormalized path = true → rewriteVirtualPath path = path)) ∧
    (∀ path, normalizeVirtualPath (normalizeVirtualPath path) = normalizeVirtualPath path) ∧
    ∀ a b, normalizeVirtualPath (a ++ '/' :: b) =
      normalizeVirtualPath (normalizeVirtualPath a ++ '/' :: b) := by
  refine ⟨fun path => ?_, fun path => ?_, fun path => ⟨rfl, fun hnorm => ?_⟩, fun path => ?_,
    normalizeVirtualPath_append⟩
  · rw [normalizeVirtualPath_eq, absolute_eq_cons_intercalate]
  · have hnorm := isNormalized_normalizeVirtualPath path
    rw [isNormalized, decide_eq_true_iff] at hnorm
    rcases hnorm with hroot | ⟨hhead, hlast, hsegments⟩
    · exact ⟨by rw [hroot]; rfl, .inl hroot⟩
    · refine ⟨hhead, .inr ⟨hlast, fun segment hmem => ?_⟩⟩
      have hdots := hsegments segment hmem
      rwa [isDots, decide_eq_false_iff_not, not_or, not_or] at hdots
  · rw [rewriteVirtualPath_eq, ← normalizeVirtualPath_eq,
      normalizeVirtualPath_of_isNormalized hnorm]
  · exact normalizeVirtualPath_of_isNormalized (isNormalized_normalizeVirtualPath path)

/-- The path `/a/../b` with `./c/` behind it is rewritten, and what comes of it is left as it is. -/
theorem normalizeVirtualPath_laws_data :
    normalizeVirtualPath (['/', 'a', '/', '.', '.', '/', 'b'] ++ '/' :: ['.', '/', 'c', '/']) =
      ['/', 'b', '/', 'c'] ∧
    rewriteVirtualPath ['/', 'b', '/', 'c'] = ['/', 'b', '/', 'c'] := by
  refine ⟨?_, (normalizeVirtualPath_laws.2.2.1 _).2 (by decide)⟩
  rw [normalizeVirtualPath_laws.2.2.2.2]
  decide

end Monty.Fs
