import Mathlib.Data.List.Infix

/-!
# Lists spelled with a separator

A list of segments is spelled by writing the separator before each of them: `spell s [a, b]` is
`s :: a ++ s :: b`. As long as no segment holds the separator, nothing is lost: `splitOn_spell`
reads the segments back, `spell_inj` follows, and `spell_append_isPrefix_iff` says when one spelling
continues another *at a separator*, which is when its segments continue the other's.
-/

namespace Separated

open List

variable {α : Type*} (s : α)

/-- The segments, each behind a separator. -/
def spell (ks : List (List α)) : List α := ks.flatMap (s :: ·)

@[simp]
theorem spell_nil : spell s [] = [] := rfl

@[simp]
theorem spell_cons (k : List α) (ks : List (List α)) : spell s (k :: ks) = s :: (k ++ spell s ks) :=
  rfl

@[simp]
theorem spell_append (ks ls : List (List α)) : spell s (ks ++ ls) = spell s ks ++ spell s ls :=
  flatMap_append

variable {ks : List (List α)}

theorem spell_eq_nil : spell s ks = [] ↔ ks = [] := by
  cases ks <;> simp

theorem spell_eq_cons_intercalate (h : ks ≠ []) : spell s ks = s :: [s].intercalate ks := by
  induction ks with
  | nil => exact absurd rfl h
  | cons k ks ih =>
    cases ks with
    | nil => simp
    | cons l ls => rw [spell_cons, ih (by simp), intercalate_cons_cons]; simp

variable [BEq α] [LawfulBEq α]

theorem spell_splitOn (p : List α) : spell s (p.splitOn s) = s :: p := by
  rw [spell_eq_cons_intercalate s (splitOn_ne_nil s p), intercalate_splitOn]

theorem not_mem_of_mem_splitOn {p k : List α} (h : k ∈ p.splitOn s) : s ∉ k := by
  induction p generalizing k with
  | nil =>
    rw [splitOn_nil, mem_singleton] at h
    simp [h]
  | cons a p ih =>
    rw [splitOn_cons_eq_if_modifyHead] at h
    split at h
    · rcases mem_cons.mp h with rfl | h
      · simp
      · exact ih h
    rename_i hne
    obtain ⟨l, ls, hl⟩ := exists_cons_of_ne_nil (splitOn_ne_nil s p)
    rw [hl, modifyHead_cons] at h
    rcases mem_cons.mp h with rfl | h
    · have hsl : s ∉ l := ih (by simp [hl])
      have : s ≠ a := fun h => hne (by simp [h])
      simp [this, hsl]
    · exact ih (by simp [hl, h])

variable {s}

theorem splitOn_append_spell {k : List α} (hk : s ∉ k)
    (hks : ∀ l ∈ ks, s ∉ l) : (k ++ spell s ks).splitOn s = k :: ks := by
  induction ks generalizing k with
  | nil => simpa using splitOn_eq_singleton hk
  | cons l ks ih =>
    rw [spell_cons, splitOn_append_cons_self_of_not_mem hk,
      ih (hks l (by simp)) fun l hl => hks l (by simp [hl])]

/-- **Splitting reads the segments back**, behind the empty one in front of the first separator. -/
theorem splitOn_spell (hks : ∀ l ∈ ks, s ∉ l) : (spell s ks).splitOn s = [] :: ks :=
  splitOn_append_spell (k := []) (by simp) hks

variable {ls : List (List α)}

theorem spell_inj (hks : ∀ l ∈ ks, s ∉ l) (hls : ∀ l ∈ ls, s ∉ l)
    (h : spell s ks = spell s ls) : ks = ls := by
  have := splitOn_spell hks
  rw [h, splitOn_spell hls] at this
  exact (List.cons.inj this).2.symm

theorem splitOn_append_cons (p q : List α) :
    (p ++ s :: q).splitOn s = p.splitOn s ++ q.splitOn s := by
  have hspell : spell s ((p ++ s :: q).splitOn s) = spell s (p.splitOn s ++ q.splitOn s) := by
    rw [spell_splitOn, spell_append, spell_splitOn, spell_splitOn, cons_append]
  refine spell_inj (fun l hl => not_mem_of_mem_splitOn s hl) (fun l hl => ?_) hspell
  rcases mem_append.mp hl with hl | hl
  · exact not_mem_of_mem_splitOn s hl
  · exact not_mem_of_mem_splitOn s hl

/-- **One spelling continues another at a separator** just when the segments do. -/
theorem spell_append_isPrefix_iff (hks : ∀ l ∈ ks, s ∉ l) (hls : ∀ l ∈ ls, s ∉ l) :
    (∃ rest, spell s ls = spell s ks ++ rest ∧ (rest = [] ∨ rest.head? = some s)) ↔ ks <+: ls := by
  constructor
  · rintro ⟨rest, heq, rfl | hhead⟩
    · rw [append_nil] at heq
      rw [spell_inj hls hks heq]
    obtain ⟨tail, rfl⟩ : ∃ tail, rest = s :: tail := by
      cases rest with
      | nil => simp at hhead
      | cons a tail => exact ⟨tail, by simpa using hhead⟩
    rw [← spell_splitOn s tail, ← spell_append] at heq
    refine ⟨tail.splitOn s, (spell_inj hls ?_ heq).symm⟩
    intro l hl
    rcases mem_append.mp hl with hl | hl
    · exact hks l hl
    · exact not_mem_of_mem_splitOn s hl
  · rintro ⟨rs, rfl⟩
    refine ⟨spell s rs, spell_append s ks rs, ?_⟩
    cases rs <;> simp

end Separated
