import Monty.Heap.Collector
import Mathlib.Tactic.Linarith

/-!
# What painting a subgraph does

`mark c δ h ptr` paints a set `P` of entries: `ptr`, and whatever it reaches through entries that
were not of colour `c` before. `Heap.mark_spec` says that it returns, that each count grows by `δ`
for every edge out of `P` (`edgesInto`), and that the edges out of `P` lead into `P` or to entries
that had the colour already.

The loop carries the set `done` of entries whose edges have been walked. The entries painted but
not yet walked are the current one and the stack, without repetition, so the loop runs at most once
per slot and the step bound of the model is never reached.
-/

namespace Monty

open Multigraph List

namespace Heap

variable {D : Type}

variable {δ : ℤ}

theorem adjust_of_nonneg {n : Nat} (hn : 0 ≤ (n : ℤ) + δ) : adjust δ n = .ok ((n : ℤ) + δ).toNat :=
  if_pos hn

/-- What `h'` is to `h` once the edges to the entries of the list `cs` have been walked. -/
structure WalkedEdges (c : CcColor) (δ : ℤ) (cs : List HeapId) (h h' : Heap D) : Prop where
  shape : SameShape h h'
  color : ∀ x, h'.color x = if x ∈ cs then c else h.color x
  refcount : ∀ x, (h'.refcount x : ℤ) = h.refcount x + δ * (cs.count x : ℤ)

theorem WalkedEdges.nil (c : CcColor) (δ : ℤ) (h : Heap D) : WalkedEdges c δ [] h h :=
  ⟨.refl h, by simp, by simp⟩

variable {c : CcColor} {h h' : Heap D}

theorem WalkedEdges.append {cs ds : List HeapId} {h'' : Heap D} (h₁ : WalkedEdges c δ cs h h')
    (h2 : WalkedEdges c δ ds h' h'') : WalkedEdges c δ (cs ++ ds) h h'' := by
  refine ⟨h₁.shape.trans h2.shape, fun x => ?_, fun x => ?_⟩
  · rw [h2.color, h₁.color]
    by_cases hd : x ∈ ds <;> by_cases hc : x ∈ cs <;> simp [hd, hc]
  · rw [h2.refcount, h₁.refcount, count_append]
    push_cast
    ring

theorem WalkedEdges.single {child : HeapId} {e : HeapEntry D}
    (he : h.get? child = some e) (hroom : 0 ≤ (e.refcount : ℤ) + δ) :
    WalkedEdges c δ [child] h
      (h.setEntry child { e with refcount := ((e.refcount : ℤ) + δ).toNat, color := c }) := by
  refine ⟨.setEntry he rfl, fun x => ?_, fun x => ?_⟩
  · rw [color_setEntry he]
    simp
  rw [refcount_setEntry he]
  by_cases hx : x = child
  · rw [if_pos hx, hx, refcount_of_get? he, count_singleton_self, Int.toNat_of_nonneg hroom]
    simp
  · rw [if_neg hx, count_singleton, beq_eq_false_iff_ne.mpr (Ne.symm hx)]
    simp

/-- **One entry's edges.**  Every child is painted and adjusted once per edge, and the stack grows
by the children that were not of the colour before, each once. -/
theorem markChildren_spec (c : CcColor) (δ : ℤ) : ∀ (cs : List HeapId) (h : Heap D)
    (stack : List HeapId), (∀ x ∈ cs, x ∈ h.live) →
    (∀ x n, n ≤ cs.count x → 0 ≤ (h.refcount x : ℤ) + δ * (n : ℤ)) →
    ∃ h' new, markChildren c δ cs h stack = .ok (h', new ++ stack) ∧ WalkedEdges c δ cs h h' ∧
      new.Nodup ∧ ∀ x, x ∈ new ↔ x ∈ cs ∧ h.color x ≠ c
  | [], h, stack, _, _ => ⟨h, [], rfl, .nil c δ h, .nil, by simp⟩
  | child :: rest, h, stack, hlive, hroom => by
    obtain ⟨e, he⟩ := mem_live.mp (hlive child mem_cons_self)
    have hchild : 0 ≤ (e.refcount : ℤ) + δ := by
      have h1 := hroom child 1 (by simp)
      rwa [refcount_of_get? he, Nat.cast_one, mul_one] at h1
    have hw1 := WalkedEdges.single (c := c) he hchild
    generalize hh1 : h.setEntry child
      { e with refcount := ((e.refcount : ℤ) + δ).toNat, color := c } = h₁ at hw1
    have hroom1 : ∀ x n, n ≤ rest.count x → 0 ≤ (h₁.refcount x : ℤ) + δ * (n : ℤ) := by
      intro x n hn
      have hcount : (child :: rest).count x = [child].count x + rest.count x := by
        rw [← count_append, singleton_append]
      have h1 := hroom x ([child].count x + n) (by omega)
      rw [hw1.refcount]
      push_cast at h1
      linarith
    have hlive1 : ∀ x ∈ rest, x ∈ h₁.live := by
      rw [hw1.shape.live]
      exact fun x hx => hlive x (mem_cons_of_mem _ hx)
    obtain ⟨h', new, hrun, hw, hnd, hnew⟩ := markChildren_spec c δ rest h₁
      (if e.color = c then stack else child :: stack) hlive1 hroom1
    have hrun' : markChildren c δ (child :: rest) h stack
        = .ok (h', new ++ if e.color = c then stack else child :: stack) := by
      rw [markChildren, get_of_get? he]
      simp only [bind, Except.bind, adjust_of_nonneg hchild]
      rw [hh1]
      exact hrun
    -- a child is pushed by the first of its edges only
    have hnew' : ∀ x, x ∈ new ↔ x ∈ rest ∧ x ≠ child ∧ h.color x ≠ c := by
      intro x
      rw [hnew, hw1.color]
      by_cases hx : x = child <;> simp [hx]
    by_cases hc : e.color = c
    · rw [if_pos hc] at hrun'
      refine ⟨h', new, hrun', hw1.append hw, hnd, fun x => ?_⟩
      rw [hnew', mem_cons]
      by_cases hx : x = child
      · simp [hx, color_of_get? he, hc]
      · simp [hx]
    rw [if_neg hc, show new ++ child :: stack = (new ++ [child]) ++ stack by simp] at hrun'
    refine ⟨h', new ++ [child], hrun', hw1.append hw, ?_, fun x => ?_⟩
    · have hnotin : child ∉ new := fun hin => ((hnew' child).mp hin).2.1 rfl
      simpa using hnd.concat hnotin
    · rw [mem_append, hnew', mem_singleton, mem_cons]
      by_cases hx : x = child
      · simp [hx, color_of_get? he, hc]
      · simp [hx]

/-! ## The loop -/

variable [HeapItem D]

/-- Every count has room for the adjustments of the edges out of the entries not of colour `c`. -/
def Room (c : CcColor) (δ : ℤ) (h : Heap D) : Prop :=
  ∀ x n, n ≤ edgesInto h.children (h.live.filter (h.color · ≠ c)) x →
    0 ≤ (h.refcount x : ℤ) + δ * (n : ℤ)

/-- **The invariant of a marking in progress.**  The edges of the entries in `done` have been
walked; those in `pending` are painted and wait on the stack. -/
structure Marking (c : CcColor) (δ : ℤ) (h : Heap D) (ptr : HeapId) (done : Finset HeapId)
    (pending : List HeapId) (h' : Heap D) : Prop where
  shape : SameShape h h'
  nodup : pending.Nodup
  disjoint : ∀ x ∈ pending, x ∉ done
  root : ptr ∈ done ∨ ptr ∈ pending
  color : ∀ x, h'.color x = if x ∈ done ∨ x ∈ pending then c else h.color x
  refcount : ∀ x, (h'.refcount x : ℤ) = h.refcount x + δ * (edgesInto h.children done x : ℤ)
  fresh : ∀ x, x ∈ done ∨ x ∈ pending → x ∈ h.live ∧ h.color x ≠ c
  closed : ∀ v ∈ done, ∀ w ∈ h.children v, (w ∈ done ∨ w ∈ pending) ∨ h.color w = c
  reach : ∀ x, x ∈ done ∨ x ∈ pending → Reach h.children ptr x

section

variable {ptr : HeapId} {done : Finset HeapId} {stack : List HeapId} {cur : HeapId}

/-- The room left while the edges of `cur` are walked. -/
theorem Marking.room
    (hm : Marking c δ h ptr done (cur :: stack) h') (hroom : Room c δ h) (x : HeapId) (n : Nat)
    (hn : n ≤ (h.children cur).count x) : 0 ≤ (h'.refcount x : ℤ) + δ * (n : ℤ) := by
  have hcur : cur ∉ done := hm.disjoint cur mem_cons_self
  have hsub : insert cur done ⊆ h.live.filter (h.color · ≠ c) := by
    intro y hy
    rw [Finset.mem_filter]
    rcases Finset.mem_insert.mp hy with rfl | hy
    · exact hm.fresh y (.inr mem_cons_self)
    · exact hm.fresh y (.inl hy)
  have hle := edgesInto_mono h.children hsub x
  rw [edgesInto_insert _ hcur] at hle
  have h1 := hroom x (edgesInto h.children done x + n) (by omega)
  rw [hm.refcount]
  push_cast at h1
  linarith

/-- **One round of the loop**: `cur` is done, and the children it painted are pending. -/
theorem Marking.step (hclosed : ∀ v, ∀ w ∈ h.children v, w ∈ h.live) (hroom : Room c δ h)
    (hm : Marking c δ h ptr done (cur :: stack) h') :
    ∃ h'' new, markChildren c δ (h.children cur) h' stack = .ok (h'', new ++ stack) ∧
      Marking c δ h ptr (insert cur done) (new ++ stack) h'' := by
  have hcur : cur ∉ done := hm.disjoint cur mem_cons_self
  obtain ⟨h'', new, hrun, hw, hnd, hnew⟩ := markChildren_spec c δ (h.children cur) h' stack
    (fun x hx => by rw [hm.shape.live]; exact hclosed cur x hx) (hm.room hroom)
  -- the new entries are children of `cur` that nothing has painted before
  have hnew' : ∀ x, x ∈ new ↔
      x ∈ h.children cur ∧ ¬ (x ∈ done ∨ x ∈ cur :: stack) ∧ h.color x ≠ c := by
    intro x
    rw [hnew, hm.color]
    split_ifs with hx <;> tauto
  have hpainted : ∀ x, (x ∈ insert cur done ∨ x ∈ new ++ stack) ↔
      (x ∈ done ∨ x ∈ cur :: stack) ∨ x ∈ new := by
    intro x
    rw [Finset.mem_insert, mem_append, mem_cons]
    tauto
  have hstack : stack.Nodup := (nodup_cons.mp hm.nodup).2
  refine ⟨h'', new, hrun, ⟨hm.shape.trans hw.shape, ?_, ?_, ?_, ?_, ?_, ?_, ?_, ?_⟩⟩
  · refine nodup_append.mpr ⟨hnd, hstack, ?_⟩
    rintro x hx y hy rfl
    exact ((hnew' x).mp hx).2.1 (.inr (mem_cons_of_mem _ hy))
  · intro x hx hdone
    rcases mem_append.mp hx with hx | hx
    · have hnot := ((hnew' x).mp hx).2.1
      rcases Finset.mem_insert.mp hdone with rfl | hdone
      · exact hnot (.inr mem_cons_self)
      · exact hnot (.inl hdone)
    · rcases Finset.mem_insert.mp hdone with rfl | hdone
      · exact (nodup_cons.mp hm.nodup).1 hx
      · exact hm.disjoint x (mem_cons_of_mem _ hx) hdone
  · exact (hpainted ptr).mpr (.inl hm.root)
  · intro x
    rw [hw.color, hm.color]
    by_cases hx : x ∈ done ∨ x ∈ cur :: stack
    · rw [if_pos hx, if_pos ((hpainted x).mpr (.inl hx)), ite_self]
    by_cases hch : x ∈ h.children cur
    · rw [if_pos hch]
      by_cases hc : h.color x = c
      · rw [hc, ite_self]
      · rw [if_pos ((hpainted x).mpr (.inr ((hnew' x).mpr ⟨hch, hx, hc⟩)))]
    · have hno : x ∉ new := fun hin => hch ((hnew' x).mp hin).1
      rw [if_neg hch, if_neg hx, if_neg (by rw [hpainted]; tauto)]
  · intro x
    rw [hw.refcount, hm.refcount, edgesInto_insert _ hcur]
    push_cast
    ring
  · intro x hx
    rcases (hpainted x).mp hx with hx | hx
    · exact hm.fresh x hx
    · have hx' := (hnew' x).mp hx
      exact ⟨hclosed cur x hx'.1, hx'.2.2⟩
  · intro v hv w hw'
    rw [hpainted]
    rcases Finset.mem_insert.mp hv with rfl | hv
    · by_cases hc : h.color w = c
      · exact .inr hc
      · by_cases hp : w ∈ done ∨ w ∈ v :: stack
        · exact .inl (.inl hp)
        · exact .inl (.inr ((hnew' w).mpr ⟨hw', hp, hc⟩))
    · rcases hm.closed v hv w hw' with hp | hc
      · exact .inl (.inl hp)
      · exact .inr hc
  · intro x hx
    rcases (hpainted x).mp hx with hx | hx
    · exact hm.reach x hx
    · exact (hm.reach cur (.inr mem_cons_self)).tail ((hnew' x).mp hx).1

theorem markLoop_spec (hclosed : ∀ v, ∀ w ∈ h.children v, w ∈ h.live) (hroom : Room c δ h) :
    ∀ (fuel : Nat) (h' : Heap D) (cur : HeapId) (stack : List HeapId) (done : Finset HeapId),
    Marking c δ h ptr done (cur :: stack) h' → h.live.card ≤ fuel + done.card →
    ∃ h'' P, markLoop c δ fuel h' cur stack = .ok h'' ∧ Marking c δ h ptr P [] h''
  | 0, h', cur, stack, done, hm, hfuel => by
    -- `cur` is live and not done, so not everything live is done
    have hsub : insert cur done ⊆ h.live := by
      intro y hy
      rcases Finset.mem_insert.mp hy with rfl | hy
      · exact (hm.fresh y (.inr mem_cons_self)).1
      · exact (hm.fresh y (.inl hy)).1
    have hcard := Finset.card_le_card hsub
    rw [Finset.card_insert_of_notMem (hm.disjoint cur mem_cons_self)] at hcard
    omega
  | fuel + 1, h', cur, stack, done, hm, hfuel => by
    obtain ⟨h'', new, hrun, hm'⟩ := hm.step hclosed hroom
    have hlive : cur ∈ h'.live := by
      rw [hm.shape.live]
      exact (hm.fresh cur (.inr mem_cons_self)).1
    obtain ⟨e, he⟩ := mem_live.mp hlive
    have hcard : h.live.card ≤ fuel + (insert cur done).card := by
      rw [Finset.card_insert_of_notMem (hm.disjoint cur mem_cons_self)]
      omega
    rw [markLoop, get_of_get? he]
    simp only [bind, Except.bind, ← children_of_get? he, hm.shape.children, hrun]
    cases hst : new ++ stack with
    | nil => exact ⟨h'', insert cur done, rfl, hst ▸ hm'⟩
    | cons next rest =>
      exact markLoop_spec hclosed hroom fuel h'' next rest _ (hst ▸ hm') hcard

end

/-! ## The walk as a whole -/

/-- What `h'` is to `h` once the set `P` has been painted from `ptr`. -/
structure Painted (c : CcColor) (δ : ℤ) (h : Heap D) (ptr : HeapId) (P : Finset HeapId)
    (h' : Heap D) : Prop where
  shape : SameShape h h'
  root : ptr ∈ P
  color : ∀ x, h'.color x = if x ∈ P then c else h.color x
  refcount : ∀ x, (h'.refcount x : ℤ) = h.refcount x + δ * (edgesInto h.children P x : ℤ)
  fresh : ∀ x ∈ P, x ∈ h.live ∧ h.color x ≠ c
  closed : ∀ v ∈ P, ∀ w ∈ h.children v, w ∈ P ∨ h.color w = c
  reach : ∀ x ∈ P, Reach h.children ptr x

/-- **Marking paints and adjusts a closed set of entries.** -/
theorem mark_spec {ptr : HeapId} (hclosed : ∀ v, ∀ w ∈ h.children v, w ∈ h.live)
    (hroom : Room c δ h) (hptr : ptr ∈ h.live) (hcolor : h.color ptr ≠ c) :
    ∃ h' P, mark c δ h ptr = .ok h' ∧ Painted c δ h ptr P h' := by
  obtain ⟨e, he⟩ := mem_live.mp hptr
  have hstart : Marking c δ h ptr ∅ [ptr] (h.setEntry ptr { e with color := c }) := by
    refine ⟨.setEntry he rfl, nodup_singleton _, by simp, by simp, fun x => ?_, fun x => ?_,
      by simp [hptr, hcolor], by simp, fun x hx => ?_⟩
    · simp [color_setEntry he]
    · rw [refcount_setEntry_of_eq he { e with color := c } x rfl]
      simp
    · obtain rfl : x = ptr := by simpa using hx
      exact .refl
  obtain ⟨h', P, hrun, hm⟩ := markLoop_spec hclosed hroom h.entries.len _ ptr [] ∅ hstart
    (by simpa using h.card_live_le_len)
  refine ⟨h', P, ?_, ⟨hm.shape, by simpa using hm.root, by simpa using hm.color, hm.refcount,
    by simpa using hm.fresh, by simpa using hm.closed, by simpa using hm.reach⟩⟩
  rw [mark, get_of_get? he]
  exact hrun

end Heap

end Monty
