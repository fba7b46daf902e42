import Mathlib.Algebra.GroupWithZero.Nat
import Mathlib.Data.List.Basic
import Mathlib.Data.List.Flatten

/-!
# Code as a sequence of instructions

Instructions of varying length, written one behind the other. A `Codec` reads back the first
instruction of what is written, so that the whole code can be read back (`disassemble_assemble`)
although nothing marks where an instruction begins.

`placed` gives each instruction its position. Code grows at the end (`placed_append`), and an
instruction may be replaced by one of the same length (`placed_replace`): no other one moves then.
-/

namespace Assembly

open List

variable {ι α β : Type}

/-! ## Positions -/

/-- The items with their positions, from `start` on. -/
def placed (size : α → Nat) : Nat → List α → List (Nat × α)
  | _, [] => []
  | start, x :: xs => (start, x) :: placed size (start + size x) xs

/-- How much room items take. -/
def extent (size : α → Nat) (xs : List α) : Nat := (xs.map size).sum

variable {start pos : Nat} {x x' : α} {xs ys : List α}

section Placed

variable {size : α → Nat}

@[simp] theorem extent_nil : extent size [] = 0 := rfl

@[simp] theorem extent_cons : extent size (x :: xs) = size x + extent size xs := by simp [extent]

@[simp] theorem extent_append : extent size (xs ++ ys) = extent size xs + extent size ys := by
  simp [extent]

theorem placed_append :
    placed size start (xs ++ ys) = placed size start xs ++ placed size
      (start + extent size xs) ys := by
  induction xs generalizing start with
  | nil => simp [placed]
  | cons x xs ih => simp [placed, ih, Nat.add_assoc]

theorem map_snd_placed : (placed size start xs).map Prod.snd = xs := by
  induction xs generalizing start with
  | nil => rfl
  | cons x xs ih => simp [placed, ih]

theorem placed_map {f : α → ι} {size' : ι → Nat} (h : ∀ x, size' (f x) = size x) :
    placed size' start (xs.map f) = (placed size start xs).map fun p => (p.1, f p.2) := by
  induction xs generalizing start with
  | nil => rfl
  | cons x xs ih => simp [placed, ih, h]

theorem exists_append_of_mem_placed (h : (pos, x) ∈ placed size start xs) :
    ∃ l r, xs = l ++ x :: r ∧ pos = start + extent size l := by
  induction xs generalizing start with
  | nil => cases h
  | cons y xs ih =>
    rcases mem_cons.mp h with heq | h
    · obtain ⟨rfl, rfl⟩ := Prod.mk.inj heq
      exact ⟨[], xs, rfl, by simp⟩
    · obtain ⟨l, r, rfl, rfl⟩ := ih h
      exact ⟨y :: l, r, rfl, by simp [Nat.add_assoc]⟩

theorem mem_placed_append_cons (xs ys : List α) (x : α) :
    (start + extent size xs, x) ∈ placed size start (xs ++ x :: ys) := by
  simp [placed_append, placed]

theorem mem_placed_zero (xs ys : List α) (x : α) :
    (extent size xs, x) ∈ placed size 0 (xs ++ x :: ys) := by
  simp [placed_append, placed]

theorem add_size_le_of_mem_placed (h : (pos, x) ∈ placed size start xs) :
    start ≤ pos ∧ pos + size x ≤ start + extent size xs := by
  obtain ⟨l, r, rfl, rfl⟩ := exists_append_of_mem_placed h
  rw [extent_append, extent_cons]
  omega

/-- **One item is at a position.** -/
theorem placed_unique (hsize : ∀ x, 0 < size x) {y : α} (hx : (pos, x) ∈ placed size start xs)
    (hy : (pos, y) ∈ placed size start xs) : x = y := by
  induction xs generalizing start with
  | nil => cases hx
  | cons z xs ih =>
    have hz := hsize z
    rcases mem_cons.mp hx with hx | hx <;> rcases mem_cons.mp hy with hy | hy
    · exact (Prod.mk.inj hx).2.trans (Prod.mk.inj hy).2.symm
    · have := (add_size_le_of_mem_placed hy).1
      have := (Prod.mk.inj hx).1
      omega
    · have := (add_size_le_of_mem_placed hx).1
      have := (Prod.mk.inj hy).1
      omega
    · exact ih hx hy

/-- An item begins at the position, or the end is there. -/
def Boundary (size : α → Nat) (xs : List α) (pos : Nat) : Prop :=
  (∃ x, (pos, x) ∈ placed size 0 xs) ∨ pos = extent size xs

theorem boundary_end : Boundary size xs (extent size xs) := .inr rfl

theorem Boundary.append (h : Boundary size xs pos) (ys : List α) :
    Boundary size (xs ++ ys) pos := by
  rcases h with ⟨x, hx⟩ | rfl
  · exact .inl ⟨x, by rw [placed_append]; exact mem_append_left _ hx⟩
  · cases ys with
    | nil => exact .inr (by rw [append_nil])
    | cons y ys => exact .inl ⟨y, mem_placed_zero xs ys y⟩

end Placed

/-! ## Replacing an item -/

section

variable {size : α → Nat} {y : α}

/-- Another item of the same size leaves the others where they are. -/
theorem mem_placed_replace (h : size x' = size x)
    (hy : (pos, y) ∈ placed size start (xs ++ x' :: ys)) :
    (pos = start + extent size xs ∧ y = x') ∨ (pos, y) ∈ placed size start (xs ++ x :: ys) := by
  rw [placed_append, placed, h] at hy
  rw [placed_append, placed]
  rcases mem_append.mp hy with hy | hy
  · exact .inr (mem_append_left _ hy)
  · rcases mem_cons.mp hy with heq | hy
    · exact .inl (Prod.mk.inj heq)
    · exact .inr (mem_append_right _ (mem_cons_of_mem _ hy))

theorem extent_replace (h : size x' = size x) :
    extent size (xs ++ x' :: ys) = extent size (xs ++ x :: ys) := by simp [h]

theorem Boundary.replace (h : size x' = size x) (hb : Boundary size (xs ++ x :: ys) pos) :
    Boundary size (xs ++ x' :: ys) pos := by
  rcases hb with ⟨y, hy⟩ | rfl
  · rcases mem_placed_replace h.symm hy with ⟨rfl, -⟩ | hy
    · exact .inl ⟨x', mem_placed_append_cons xs ys x'⟩
    · exact .inl ⟨y, hy⟩
  · exact .inr (extent_replace h).symm

end

/-! ## Reading code back -/

/-- A way to write instructions down such that the first one can be read back. -/
structure Codec (ι β : Type) where
  encode : ι → List β
  decode : List β → Option (ι × List β)
  /-- What can be written down. -/
  Encodable : ι → Prop
  encode_ne_nil : ∀ i, encode i ≠ []
  decode_encode : ∀ i rest, Encodable i → decode (encode i ++ rest) = some (i, rest)

namespace Codec

variable (c : Codec ι β)

/-- The length of an instruction. -/
def size (i : ι) : Nat := (c.encode i).length

/-- The code of some instructions. -/
def assemble (is : List ι) : List β := is.flatMap c.encode

/-- Reads instructions off the front of the code until it ends. -/
def disassemble : Nat → Nat → List β → Option (List (Nat × ι))
  | _, _, [] => some []
  | 0, _, _ :: _ => none
  | fuel + 1, pos, code => do
    let (i, rest) ← c.decode code
    let is ← disassemble fuel (pos + c.size i) rest
    some ((pos, i) :: is)

theorem size_pos (i : ι) : 0 < c.size i := length_pos_iff.mpr (c.encode_ne_nil i)

theorem length_assemble (is : List ι) : (c.assemble is).length = extent c.size is := by
  rw [assemble, length_flatMap]
  rfl

/-- **What was assembled is read back**, with the positions. -/
theorem disassemble_assemble {is : List ι} (h : ∀ i ∈ is, c.Encodable i) {fuel : Nat}
    (hfuel : (c.assemble is).length ≤ fuel) (pos : Nat) :
    c.disassemble fuel pos (c.assemble is) = some (placed c.size pos is) := by
  induction is generalizing fuel pos with
  | nil => cases fuel <;> rfl
  | cons i is ih =>
    have hcode : c.assemble (i :: is) = c.encode i ++ c.assemble is := rfl
    have hpos := c.size_pos i
    rw [hcode, length_append] at hfuel
    obtain ⟨fuel, rfl⟩ : ∃ n, fuel = n + 1 := ⟨fuel - 1, by rw [size] at hpos; omega⟩
    have hdecode := c.decode_encode i (c.assemble is) (h i (by simp))
    have hlen : (c.assemble is).length ≤ fuel := by
      rw [size] at hpos
      omega
    have hrest := ih (fun j hj => h j (by simp [hj])) hlen (pos + c.size i)
    rw [hcode]
    obtain ⟨b, bs, hb⟩ := exists_cons_of_ne_nil (c.encode_ne_nil i)
    rw [hb, cons_append, disassemble, ← cons_append, ← hb, hdecode]
    simp only [Option.bind_eq_bind, Option.bind_some, hrest, placed]
    simp

end Codec

end Assembly
