import Mathlib.Data.UInt

/-!
# Hash tables of indices

A hash table that stores indices into some other storage, and leaves hashing and equality to its
user: an index goes in under a hash, and a lookup under a hash visits some of the stored indices
until the caller accepts one.

The table is a multiset of pairs of a hash and an index. A lookup visits, in an order of the table's
choosing, every index stored under the hash; it may also visit indices stored under other hashes,
but none more often than it is stored. When the table grows it asks its user for the hashes of the
stored indices again, so an insertion is only meaningful if the answers are the hashes they were
stored under.
-/

/-- A hash table of indices. -/
class BucketTable (T : Type) where
  /-- The stored pairs of a hash and an index. -/
  contents : T → Multiset (UInt64 × Nat)
  empty : T
  /-- Stores an index under a hash, whether or not one is there already. The function gives the
  hash of a stored index. -/
  insertUnique : T → UInt64 → Nat → (Nat → UInt64) → T
  /-- The indices visited by a lookup under a hash, in order. -/
  probeSeq : T → UInt64 → List Nat
  /-- Removes the first index that a lookup under the hash accepts. -/
  removeFirst : T → UInt64 → (Nat → Bool) → T
  clear : T → T
  len : T → Nat
  contents_empty : contents empty = 0
  contents_clear : ∀ t, contents (clear t) = 0
  len_eq : ∀ t, len t = (contents t).card
  contents_insertUnique : ∀ t h i hasher, (∀ p ∈ contents t, hasher p.2 = p.1) →
    contents (insertUnique t h i hasher) = (h, i) ::ₘ contents t
  probeSeq_le : ∀ t h, (probeSeq t h : Multiset Nat) ≤ (contents t).map Prod.snd
  mem_probeSeq : ∀ t h i, (h, i) ∈ contents t → i ∈ probeSeq t h
  contents_removeFirst : ∀ t h p i, (probeSeq t h).find? p = some i →
    ∃ h', (h', i) ∈ contents t ∧ contents (removeFirst t h p) = (contents t).erase (h', i)

namespace BucketTable

variable {T : Type} [BucketTable T]

theorem exists_hash_of_mem_probeSeq {t : T} {h : UInt64} {i : Nat} (hi : i ∈ probeSeq t h) :
    ∃ h', (h', i) ∈ contents t := by
  have hmem : i ∈ (contents t).map Prod.snd :=
    Multiset.mem_of_le (probeSeq_le t h) (Multiset.mem_coe.mpr hi)
  obtain ⟨⟨h', j⟩, hp, rfl⟩ := Multiset.mem_map.mp hmem
  exact ⟨h', hp⟩

theorem nodup_probeSeq {t : T} (hnd : ((contents t).map Prod.snd).Nodup) (h : UInt64) :
    (probeSeq t h).Nodup :=
  Multiset.coe_nodup.mp (Multiset.nodup_of_le (probeSeq_le t h) hnd)

/-- The list of pairs, searched from end to end. -/
instance : BucketTable (List (UInt64 × Nat)) where
  contents t := t
  empty := []
  insertUnique t h i _ := (h, i) :: t
  probeSeq t _ := t.map Prod.snd
  removeFirst t _ p := t.eraseP (p ∘ Prod.snd)
  clear _ := []
  len t := t.length
  contents_empty := rfl
  contents_clear _ := rfl
  len_eq _ := rfl
  contents_insertUnique _ _ _ _ _ := rfl
  probeSeq_le _ _ := le_of_eq rfl
  mem_probeSeq _ _ _ hmem := List.mem_map_of_mem hmem
  contents_removeFirst t _ p i hfind := by
    rw [List.find?_map, Option.map_eq_some_iff] at hfind
    obtain ⟨⟨h', j⟩, hq, rfl⟩ := hfind
    refine ⟨h', List.mem_of_find?_eq_some hq, ?_⟩
    -- the first pair accepted is the first one erased
    obtain ⟨hp, l1, l2, rfl, hl1⟩ := List.find?_eq_some_iff_append.mp hq
    have hcons : ((l1 ++ (h', j) :: l2 : List (UInt64 × Nat)) : Multiset (UInt64 × Nat))
        = (h', j) ::ₘ ↑(l1 ++ l2) := Multiset.coe_eq_coe.mpr List.perm_middle
    dsimp only
    rw [hcons, Multiset.erase_cons_head, List.eraseP_append_right _ fun b hb => by
      simpa using hl1 b hb, List.eraseP_cons_of_pos hp]

end BucketTable
