import Mathlib.Data.List.AList

/-!
# Tables

A table is an association list without repeated keys, all of its values of one type. Looking a key
up after a change is a case distinction.
-/

/-- A finite map. -/
abbrev Keyed (α β : Type) := AList fun _ : α => β

namespace Keyed

open AList

variable {α β : Type} [DecidableEq α]

variable (m : Keyed α β)

include m

theorem lookup_insert_eq (a x : α) (b : β) :
    (m.insert a b).lookup x = if x = a then some b else m.lookup x := by
  split_ifs with h
  · rw [h, lookup_insert]
  · exact lookup_insert_ne h

theorem lookup_erase_eq (a x : α) : (m.erase a).lookup x = if x = a then none else m.lookup x := by
  split_ifs with h
  · rw [h, lookup_erase]
  · exact lookup_erase_ne h

theorem erase_eq_self {a : α} (h : m.lookup a = none) : m.erase a = m :=
  ext (List.kerase_of_notMem_keys (AList.mem_keys.not.mp (AList.lookup_eq_none.mp h)))

theorem mem_keys_iff (a : α) : a ∈ m.keys ↔ ∃ b, m.lookup a = some b := by
  rw [← mem_keys, ← lookup_isSome, Option.isSome_iff_exists]

theorem keys_eq_nil_iff : m.keys = [] ↔ ∀ a, m.lookup a = none := by
  simp only [List.eq_nil_iff_forall_not_mem, mem_keys_iff, not_exists,
    Option.eq_none_iff_forall_ne_some]

end Keyed
