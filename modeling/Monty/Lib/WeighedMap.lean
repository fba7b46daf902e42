import Mathlib.Algebra.GroupWithZero.Nat
import Mathlib.Data.Finmap

/-!
# Maps with a running total

A finite map whose entries weigh something, and the total that a program keeps beside it. Changing
one entry changes the total by the difference of two weights (`weight_insert`, `weight_erase`), so a
program can keep the total without ever summing it up.

`project` foretells the total that a whole list of insertions will lead to, without making them: it
remembers for each key the weight it was last given. `project_eq` says that it is right.
-/

namespace WeighedMap

open List AList

variable {α β : Type} [DecidableEq α] (w : α → β → Nat)

/-- A finite map. -/
abbrev Map (α β : Type) := AList fun _ : α => β

def weight (m : Map α β) : Nat := (m.entries.map fun p => w p.1 p.2).sum

/-- The weight at a key, nothing if the key is absent. -/
def weightAt (m : Map α β) (a : α) : Nat := (m.lookup a).elim 0 (w a)

variable {w} {m m' : Map α β} {a a' : α} {b : β}

theorem weight_erase (m : Map α β) (a : α) :
    weight w (m.erase a) + weightAt w m a = weight w m := by
  by_cases ha : a ∈ m
  · obtain ⟨b, l1, l2, ha1, hentries, herase⟩ := exists_of_kerase (mem_keys.mp ha)
    have hlookup : m.lookup a = some b := by
      rw [AList.lookup, hentries]
      exact (mem_dlookup_iff (hentries ▸ m.nodupKeys)).mpr (by simp)
    have hsum : (m.erase a).entries = l1 ++ l2 := herase
    rw [weight, hsum, weightAt, hlookup, weight, hentries]
    simp only [map_append, sum_append, map_cons, sum_cons, Option.elim_some]
    omega
  · have herase : m.erase a = m := ext (kerase_of_notMem_keys ha)
    rw [herase, weightAt, lookup_eq_none.mpr ha, Option.elim_none, Nat.add_zero]

theorem weight_insert (m : Map α β) (a : α) (b : β) :
    weight w (m.insert a b) + weightAt w m a = weight w m + w a b := by
  have hinsert : weight w (m.insert a b) = w a b + weight w (m.erase a) := by
    rfl
  have herase := weight_erase (w := w) m a
  omega

theorem weightAt_le (m : Map α β) (a : α) : weightAt w m a ≤ weight w m := by
  have herase := weight_erase (w := w) m a
  omega

theorem weight_congr (h : ∀ a, m.lookup a = m'.lookup a) : weight w m = weight w m' := by
  have heq : m.toFinmap = m'.toFinmap := Finmap.ext_lookup fun a => by
    simpa only [Finmap.lookup_toFinmap] using h a
  exact ((toFinmap_eq.mp heq).map _).sum_eq

theorem weightAt_insert : weightAt w (m.insert a b) a' = if a' = a then w a b
    else weightAt w m a' := by
  by_cases h : a' = a
  · subst h
    simp [weightAt]
  · simp [weightAt, h, lookup_insert_ne h]

/-! ## Many insertions -/

/-- Makes insertions one after the other. -/
def insertAll (m : Map α β) (changes : List (α × β)) : Map α β :=
  changes.foldl (fun m p => m.insert p.1 p.2) m

/-- The total that the insertions lead to. `replaced` has the weights given to keys so far. -/
def project (w : α → β → Nat) (m : Map α β) : List (α × β) → Nat → Map α Nat → Nat
  | [], projected, _ => projected
  | (a, b) :: changes, projected, replaced =>
    project w m changes (projected - (replaced.lookup a).getD (weightAt w m a) + w a b)
      (replaced.insert a (w a b))

@[simp] theorem insertAll_cons (m : Map α β) (p : α × β) (changes : List (α × β)) :
    insertAll m (p :: changes) = insertAll (m.insert p.1 p.2) changes := rfl

variable {changes : List (α × β)}

theorem lookup_insertAll_of_notMem (h : ∀ p ∈ changes, p.1 ≠ a) :
    (insertAll m changes).lookup a = m.lookup a := by
  induction changes generalizing m with
  | nil => rfl
  | cons p changes ih =>
    rw [insertAll_cons, ih fun q hq => h q (mem_cons_of_mem _ hq),
      lookup_insert_ne (h p mem_cons_self).symm]

theorem lookup_insertAll_of_mem (h : (a, b) ∈ changes)
    (hunique : ∀ p ∈ changes, p.1 = a → p.2 = b) : (insertAll m changes).lookup a = some b := by
  induction changes generalizing m with
  | nil => cases h
  | cons p changes ih =>
    rw [insertAll_cons]
    by_cases hmem : (a, b) ∈ changes
    · exact ih hmem fun q hq => hunique q (mem_cons_of_mem _ hq)
    rcases mem_cons.mp h with rfl | h
    · rw [lookup_insertAll_of_notMem fun q hq hqa => hmem ?_, lookup_insert]
      have hb := hunique q (mem_cons_of_mem _ hq) hqa
      exact (Prod.ext hqa hb : q = (a, b)) ▸ hq
    · exact absurd h hmem

/-- What the map held before at the keys that are inserted makes no difference. -/
theorem lookup_insertAll_congr (h : ∀ a, (∀ p ∈ changes, p.1 ≠ a) → m.lookup a = m'.lookup a)
    (a : α) : (insertAll m changes).lookup a = (insertAll m' changes).lookup a := by
  induction changes generalizing m m' with
  | nil => exact h a (by simp)
  | cons p changes ih =>
    refine ih fun a' ha' => ?_
    by_cases hp : a' = p.1
    · subst hp
      simp
    rw [lookup_insert_ne hp, lookup_insert_ne hp]
    exact h a' (forall_mem_cons.mpr ⟨.symm hp, ha'⟩)

/-- It makes no difference if each entry is inserted after another one at its key. -/
theorem lookup_insertAll_twice {first : β} (a : α) :
    (insertAll m (changes.flatMap fun p => [(p.1, first), p])).lookup a =
      (insertAll m changes).lookup a := by
  induction changes generalizing m with
  | nil => rfl
  | cons p changes ih =>
    refine ih.trans (lookup_insertAll_congr (fun a' _ => ?_) a)
    by_cases hp : a' = p.1
    · subst hp
      simp
    · rw [lookup_insert_ne hp, lookup_insert_ne hp, lookup_insert_ne hp]

/-- The projection from a state in which some insertions have been made. -/
theorem project_eq_of_made {made : Map α β} {replaced : Map α Nat}
    (h : ∀ a, (replaced.lookup a).getD (weightAt w m a) = weightAt w made a) :
    project w m changes (weight w made) replaced = weight w (insertAll made changes) := by
  induction changes generalizing made replaced with
  | nil => rfl
  | cons p changes ih =>
    obtain ⟨a, b⟩ := p
    have hinsert := weight_insert (w := w) made a b
    have hle := weightAt_le (w := w) made a
    rw [project, h a, show weight w made - weightAt w made a + w a b = weight w (made.insert a b) by
      omega, insertAll_cons]
    refine ih fun a' => ?_
    rw [weightAt_insert]
    by_cases ha : a' = a
    · subst ha
      simp
    · rw [lookup_insert_ne ha, h a', if_neg ha]

/-- **The projection is the total that is reached.** -/
theorem project_eq (m : Map α β) (changes : List (α × β)) :
    project w m changes (weight w m) ∅ = weight w (insertAll m changes) :=
  project_eq_of_made fun _ => by simp

end WeighedMap
