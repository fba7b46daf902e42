import Monty.Sorting.Runs

/-!
# Merging, from either end

Both merges move elements off two runs to an output. One of the runs is in the scratch space: that
is the short one, and the other, which is in the ids, the long one. Listed from the end that is
merged, the two merges do the same. Elements of the long run overtake the short one only where they
come strictly before it, and the last element of the short run comes behind all that is left of the
long one. So the loop is left when the long run is used up, or when one element of the short run is
left.

A `Merger` is what differs: how the lists lie in the arrays, how elements move, and which order is
ascending from that end. Whatever the comparison answers, the three lists stay a rearrangement of
the two runs; an honest one keeps them `Ordered`.
-/

namespace Monty.Sorting

open Fallible Search Rearrange MergeState List

variable {σ α β κ : Type} {C : Prop} {key : α → Nat}

/-! ## The state of a merge -/

theorem exists_append_of_le {l : List α} {k : Nat} (h : k ≤ l.length) :
    ∃ u w, l = u ++ w ∧ u.length = k :=
  ⟨l.take k, l.drop k, (take_append_drop k l).symm, by simpa using h⟩

theorem write_eq {s : MergeState σ α} {x y y' z : List α} {i : Nat} (hs : s.ids = x ++ (y ++ z))
    (hi : i = x.length) (hlen : y'.length = y.length) :
    write i y' s = .ok () { s with ids := x ++ (y' ++ z) } := by
  rw [write, get_bind_apply, hs, overwritten_append hi hlen, pure_bind_apply, modify_apply]

variable {p : MergeState σ α × κ}

theorem onMerge_eq {x : MergeM σ α β} {b : β} {s : MergeState σ α}
    (h : x p.1 = .ok b s) : onMerge x p = .ok b (s, p.2) := by
  rw [onMerge, zoom, h]

/-- Leaving the loop of a merge, or going on. -/
theorem ensures_exitIf {E : Stop → MergeState σ α × κ → Prop}
    {test : κ → Bool} {how : MergeEnd} (hexit : test p.2 = true → E (.returned how) p) :
    Ensures (exitIf test how) p (fun _ p' => p' = p ∧ test p.2 = false) E := by
  refine .get_bind ?_
  cases h : test p.2 with
  | true => exact .throw (hexit h)
  | false => exact .pure ⟨rfl, rfl⟩

/-- What stays fixed during a merge: the two runs, the element that belongs last, or first, and what
lies around them. -/
structure Frame (α : Type) where
  orig : List α
  l : α
  pending : List Run
  pre : List α
  post : List α

/-- A merge succeeded: in the place of the two runs is a rearrangement of them, which is a run. -/
def Merged (C : Prop) (key : α → Nat) (f : Frame α) (s : MergeState σ α) : Prop :=
  ∃ r, s.ids = f.pre ++ (r ++ f.post) ∧ s.pending = f.pending ∧ Rearranged C key r f.orig ∧
    (C → Ascending key r)

/-- A merge was aborted: in the place of the two runs is a permutation of them. -/
def MergeAborted (C : Prop) (f : Frame α) (stop : Stop) (s : MergeState σ α) : Prop :=
  Aborts C stop ∧ ∃ r, s.ids = f.pre ++ (r ++ f.post) ∧ r.Perm f.orig

/-! ## What a merge does -/

/-- A merge from one end. `Holds out short long` says how the lists lie in the arrays. -/
structure Merger (σ α κ : Type) (C : Prop) where
  takeShort : Nat → EStateM Stop (MergeState σ α × κ) Unit
  takeLong : Nat → EStateM Stop (MergeState σ α × κ) Unit
  short : κ → Nat
  long : κ → Nat
  /-- What comes first has the lower rank. -/
  rank : α → ℤ
  /-- The last element of the short run. -/
  last : α
  orig : List α
  Holds : List α → List α → List α → MergeState σ α × κ → Prop
  takeShort_eq : ∀ {out x s l p}, Holds out (x ++ s) l p →
    ∃ p', takeShort x.length p = .ok () p' ∧ Holds (out ++ x) s l p'
  takeLong_eq : ∀ {out s x l p}, Holds out s (x ++ l) p → (C → ∀ c ∈ x, ∀ y ∈ s, rank c < rank y) →
    ∃ p', takeLong x.length p = .ok () p' ∧ Holds (out ++ x) s l p'
  short_eq : ∀ {out s l p}, Holds out s l p → short p.2 = s.length
  long_eq : ∀ {out s l p}, Holds out s l p → long p.2 = l.length
  holds_update : ∀ {out s l p}, Holds out s l p → ∀ cmp minGallop,
    Holds out s l ({ p.1 with cmp, minGallop }, p.2)
  mem_orig : ∀ {out s l p}, Holds out s l p → ∀ y ∈ s ++ l, y ∈ orig

/-- The first `k` elements are of the one kind and the others of the other, if the comparison is
honest. -/
def Splits (C : Prop) (A B : α → Prop) (l : List α) (k : Nat) : Prop :=
  ∃ x l', l = x ++ l' ∧ x.length = k ∧ (C → (∀ c ∈ x, A c) ∧ ∀ c ∈ l', B c)

theorem Splits.of_take {A B : α → Prop} {l : List α} {k : Nat} (hk : k ≤ l.length)
    (h : C → (∀ c ∈ l.take k, A c) ∧ ∀ c ∈ l.drop k, B c) : Splits C A B l k :=
  ⟨l.take k, l.drop k, (take_append_drop k l).symm, by simpa using hk, h⟩

theorem Splits.reverse {A B : α → Prop} {l : List α} {k : Nat}
    (h : C → (∀ c ∈ l.reverse.take k, B c) ∧ ∀ c ∈ l.reverse.drop k, A c) :
      Splits C A B l (l.length - k) := by
  refine .of_take (Nat.sub_le ..) fun hC => ?_
  simpa [take_reverse, drop_reverse, and_comm] using h hC

namespace Merger

variable (m : Merger σ α κ C)

def Asc (l : List α) : Prop := l.Pairwise fun a b => m.rank a ≤ m.rank b

/-- What an honest comparison keeps: everything is ascending, the output comes before the rest, and
the short run still has its last element, which comes behind what is left of the long one. -/
structure Ordered (m : Merger σ α κ C) (out s l : List α) : Prop where
  asc_out : m.Asc out
  asc_short : m.Asc s
  asc_long : m.Asc l
  le : ∀ o ∈ out, ∀ y ∈ s ++ l, m.rank o ≤ m.rank y
  last : s.getLast? = some m.last
  lt_last : ∀ y ∈ l, m.rank y < m.rank m.last

structure Inv (m : Merger σ α κ C) (out s l : List α) (p : MergeState σ α × κ) : Prop where
  holds : m.Holds out s l p
  ordered : C → m.Ordered out s l

/-- The step that takes one element of the short run. -/
def stepShort : EStateM Stop (MergeState σ α × κ) Unit := do
  m.takeShort 1
  exitIf (fun c => m.short c == 1) .copyLast

/-- The step that takes one element of the long run. -/
def stepLong : EStateM Stop (MergeState σ α × κ) Unit := do
  m.takeLong 1
  exitIf (fun c => m.long c == 0) .drain

/-- How the loop may be left. -/
def Exit (stop : Stop) (p : MergeState σ α × κ) : Prop :=
  ∃ out s l, m.Inv out s l p ∧ (stop = .aborted ∧ ¬ C ∨ stop = .returned .drain ∧ (C → l = []) ∨
      stop = .returned .copyLast ∧ s.length = 1)

/-- The merge is under way, with at most `n` elements left. -/
def Going (n : Nat) (p : MergeState σ α × κ) : Prop :=
  ∃ out s l, m.Inv out s l p ∧ 2 ≤ s.length ∧ l ≠ [] ∧ s.length + l.length ≤ n

variable {m : Merger σ α κ C} {out s l x : List α} {p : MergeState σ α × κ} {n : Nat} {y z : α}

theorem Asc.rank_head_le (h : m.Asc (y :: l)) (hz : z ∈ y :: l) : m.rank y ≤ m.rank z := by
  rcases mem_cons.mp hz with rfl | hz
  · exact le_rfl
  · exact (pairwise_cons.mp h).1 z hz

theorem Inv.takeShort (h : m.Inv out (x ++ s) l p)
    (hx : C → (∀ c ∈ x, ∀ y ∈ l, m.rank c ≤ m.rank y) ∧ s ≠ []) :
    ∃ p', m.takeShort x.length p = .ok () p' ∧ m.Inv (out ++ x) s l p' := by
  obtain ⟨p', heq, hholds⟩ := m.takeShort_eq h.holds
  refine ⟨p', heq, hholds, fun hC => ?_⟩
  obtain ⟨hout, hs, hl, hle, hlast, hlt⟩ := h.ordered hC
  obtain ⟨hxl, hne⟩ := hx hC
  obtain ⟨hx, hs, hxs⟩ := pairwise_append.mp hs
  refine ⟨pairwise_append.mpr ⟨hout, hx, fun o ho c hc => hle o ho c (by simp [hc])⟩, hs, hl,
    fun o ho y hy => ?_, by rwa [List.getLast?_append_of_ne_nil _ hne] at hlast, hlt⟩
  rcases mem_append.mp ho with ho | ho
  · exact hle o ho y (by simp only [mem_append] at hy ⊢; tauto)
  · exact (mem_append.mp hy).elim (hxs o ho y) (hxl o ho y)

theorem Inv.takeLong (h : m.Inv out s (x ++ l) p) (hx : C → ∀ c ∈ x, ∀ y ∈ s, m.rank c < m.rank y) :
    ∃ p', m.takeLong x.length p = .ok () p' ∧ m.Inv (out ++ x) s l p' := by
  obtain ⟨p', heq, hholds⟩ := m.takeLong_eq h.holds hx
  refine ⟨p', heq, hholds, fun hC => ?_⟩
  obtain ⟨hout, hs, hl, hle, hlast, hlt⟩ := h.ordered hC
  obtain ⟨hasc, hl, hxl⟩ := pairwise_append.mp hl
  refine ⟨pairwise_append.mpr ⟨hout, hasc, fun o ho c hc => hle o ho c (by simp [hc])⟩, hs, hl,
    fun o ho y hy => ?_, hlast, fun y hy => hlt y (by simp [hy])⟩
  rcases mem_append.mp ho with ho | ho
  · exact hle o ho y (by simp only [mem_append] at hy ⊢; tauto)
  · exact (mem_append.mp hy).elim (fun hy => (hx hC o ho y hy).le) (hxl o ho y)

/-- A question during the merge changes the comparison's own state only. -/
theorem Inv.ensures_asking (h : m.Inv out s l p) {x : EStateM Stop σ β} {Q : β → Prop}
    (hx : Returns x Q (Aborts C)) :
    Ensures (onMerge (asking x)) p (fun r p' => Q r ∧ m.Inv out s l p') m.Exit := by
  have hinv : ∀ cmp, m.Inv out s l ({ p.1 with cmp }, p.2) := fun cmp =>
    ⟨m.holds_update h.holds cmp p.1.minGallop, h.ordered⟩
  refine (Ensures.zoom (hx p.1.cmp).zoom).mono ?_ ?_
  · rintro r _ ⟨_, rfl, cmp, rfl, hr⟩
    exact ⟨hr, hinv cmp⟩
  · rintro stop _ ⟨_, rfl, cmp, rfl, hstop⟩
    exact ⟨out, s, l, hinv cmp, .inl hstop⟩

theorem Going.setMinGallop (h : m.Going n p) (minGallop : Nat) :
    m.Going n ({ p.1 with minGallop }, p.2) := by
  obtain ⟨out, s, l, hinv, hrest⟩ := h
  exact ⟨out, s, l, ⟨m.holds_update hinv.holds p.1.cmp minGallop, hinv.ordered⟩, hrest⟩

theorem Going.mono {k : Nat} (h : m.Going k p) (hle : k ≤ n) : m.Going n p := by
  obtain ⟨out, s, l, hinv, hs, hl, hsum⟩ := h
  exact ⟨out, s, l, hinv, hs, hl, hsum.trans hle⟩

/-- Both runs have a next element, and the short one more. -/
theorem Going.exists_cons (h : m.Going n p) :
    ∃ out y s z l, m.Inv out (y :: s) (z :: l) p ∧ s ≠ [] ∧ s.length + l.length + 2 ≤ n := by
  obtain ⟨out, s, l, hinv, hs, hl, hsum⟩ := h
  obtain ⟨y, s, rfl⟩ := exists_cons_of_length_pos (by omega : 0 < s.length)
  obtain ⟨z, l, rfl⟩ := exists_cons_of_ne_nil hl
  simp only [length_cons] at hs hsum
  exact ⟨out, y, s, z, l, hinv, ne_nil_of_length_pos (by omega), by omega⟩

theorem Inv.ensures_exitLong (h : m.Inv out s l p) :
    Ensures (exitIf (fun c => m.long c == 0) .drain) p (fun _ p' => p' = p ∧ l ≠ []) m.Exit := by
  refine (ensures_exitIf fun hlong => ?_).mono ?_ fun _ _ he => he
  · rw [beq_iff_eq, m.long_eq h.holds] at hlong
    exact ⟨_, _, _, h, .inr (.inl ⟨rfl, fun _ => eq_nil_of_length_eq_zero hlong⟩)⟩
  · rintro - _ ⟨rfl, hlong⟩
    refine ⟨rfl, fun hl => ?_⟩
    simp [m.long_eq h.holds, hl] at hlong

theorem Inv.ensures_exitShort (h : m.Inv out s l p) :
    Ensures (exitIf (fun c => m.short c == 1) .copyLast) p
      (fun _ p' => p' = p ∧ s.length ≠ 1) m.Exit := by
  refine (ensures_exitIf fun hshort => ?_).mono ?_ fun _ _ he => he
  · rw [beq_iff_eq, m.short_eq h.holds] at hshort
    exact ⟨_, _, _, h, .inr (.inr ⟨rfl, hshort⟩)⟩
  · rintro - _ ⟨rfl, hshort⟩
    rw [beq_eq_false_iff_ne, m.short_eq h.holds] at hshort
    exact ⟨rfl, hshort⟩

theorem Inv.ensures_stepLong (h : m.Inv out s (z :: l) p) (hz : C → ∀ c ∈ s, m.rank z < m.rank c) :
    Ensures m.stepLong p (fun _ p' => m.Inv (out ++ [z]) s l p' ∧ l ≠ []) m.Exit := by
  obtain ⟨p', heq, hp'⟩ := Inv.takeLong (x := [z]) h (by simpa using hz)
  refine .bind_of_eq heq (hp'.ensures_exitLong.mono ?_ fun _ _ he => he)
  rintro - _ ⟨rfl, hl⟩
  exact ⟨hp', hl⟩

theorem Inv.ensures_stepShort (h : m.Inv out (y :: s) l p) (hne : s ≠ [])
    (hy : C → ∀ c ∈ l, m.rank y ≤ m.rank c) :
    Ensures m.stepShort p (fun _ p' => m.Inv (out ++ [y]) s l p' ∧ 2 ≤ s.length) m.Exit := by
  obtain ⟨p', heq, hp'⟩ := Inv.takeShort (x := [y]) h fun hC => ⟨by simpa using hy hC, hne⟩
  refine .bind_of_eq heq (hp'.ensures_exitShort.mono ?_ fun _ _ he => he)
  rintro - _ ⟨rfl, hshort⟩
  have := length_pos_iff.mpr hne
  exact ⟨hp', by omega⟩

/-- The next elements are compared, and the one that comes first is taken. -/
theorem Inv.ensures_compare (hinv : m.Inv out (y :: s) (z :: l) p) (hne : s ≠ [])
    (hn : s.length + l.length + 2 ≤ n) {x : EStateM Stop σ Bool}
    (hx : Tells C (Aborts C) x (m.rank z < m.rank y)) :
    Ensures (do
      if ← onMerge (asking x) then do
        m.stepLong
        pure true
      else do
        m.stepShort
        pure false) p (fun _ p' => m.Going (n - 1) p') m.Exit := by
  have hpos := length_pos_iff.mpr hne
  refine (hinv.ensures_asking hx).bind ?_
  rintro less p' ⟨hless, hinv'⟩
  cases less with
  | true =>
    refine (hinv'.ensures_stepLong fun hC c hc => ?_).bind ?_
    · exact ((hless hC).mp rfl).trans_le ((hinv'.ordered hC).asc_short.rank_head_le hc)
    rintro - p'' ⟨hp'', hl⟩
    exact .pure ⟨_, _, _, hp'', by rw [length_cons]; omega, hl, by rw [length_cons]; omega⟩
  | false =>
    refine (hinv'.ensures_stepShort hne fun hC c hc => ?_).bind ?_
    · have hle : m.rank y ≤ m.rank z := not_lt.mp fun hlt => by simpa using (hless hC).mpr hlt
      exact hle.trans ((hinv'.ordered hC).asc_long.rank_head_le hc)
    rintro - p'' ⟨hp'', hs⟩
    exact .pure ⟨_, _, _, hp'', hs, by simp, by rw [length_cons]; omega⟩

section

variable {find : EStateM Stop (MergeState σ α × κ) Nat}

/-- What of the short run comes before the next element of the long one is moved, and then that
element. -/
theorem Going.ensures_gallopShort (hp : m.Going n p)
    (hfind : ∀ {out s z l}, m.Inv out s (z :: l) p → s ≠ [] →
      Ensures find p (fun k p' => Splits C (m.rank · ≤ m.rank z) (m.rank z < m.rank ·) s k ∧
        m.Inv out s (z :: l) p') m.Exit) :
    Ensures (do
      let k ← find
      if k > 0 then do
        m.takeShort k
        exitIf (fun c => m.short c == 1) .copyLast
        exitIf (fun c => m.short c == 0) .drain
      m.stepLong
      pure k) p (fun _ p' => m.Going (n - 1) p') m.Exit := by
  obtain ⟨out, s, l, hinv, hs, hl, hsum⟩ := hp
  obtain ⟨z, l, rfl⟩ := exists_cons_of_ne_nil hl
  refine (hfind hinv (ne_nil_of_length_pos (by omega))).bind ?_
  rintro _ p1 ⟨⟨x, s, rfl, rfl, hsplit⟩, hinv1⟩
  have hstep : ∀ {p2}, m.Inv (out ++ x) s (z :: l) p2 → 2 ≤ s.length →
      Ensures (do m.stepLong; pure x.length) p2 (fun _ p' => m.Going (n - 1) p') m.Exit := by
    intro p2 hinv2 hs2
    refine (hinv2.ensures_stepLong fun hC => (hsplit hC).2).bind ?_
    rintro - p3 ⟨hinv3, hl3⟩
    refine .pure ⟨_, _, _, hinv3, hs2, hl3, ?_⟩
    simp only [length_append, length_cons] at hsum
    omega
  split_ifs with hpos
  · have hrest (hC : C) : s ≠ [] := fun hnil => by
      -- the last element comes behind the long run, so it was not found
      subst hnil
      have hlast := (hinv1.ordered hC).last
      have := (hsplit hC).1 m.last (mem_of_getLast? (by simpa using hlast))
      have := (hinv1.ordered hC).lt_last z (by simp)
      omega
    obtain ⟨p', heq, hp'⟩ := hinv1.takeShort fun hC => ⟨fun c hc d hd =>
      ((hsplit hC).1 c hc).trans ((hinv1.ordered hC).asc_long.rank_head_le hd), hrest hC⟩
    refine .bind_of_eq heq (hp'.ensures_exitShort.bind ?_)
    rintro - _ ⟨rfl, hone⟩
    refine (ensures_exitIf fun hzero => ?_).bind ?_
    · rw [beq_iff_eq, m.short_eq hp'.holds] at hzero
      exact ⟨_, _, _, hp', .inr (.inl ⟨rfl, fun hC =>
        absurd (eq_nil_of_length_eq_zero hzero) (hrest hC)⟩)⟩
    rintro - _ ⟨rfl, hzero⟩
    rw [beq_eq_false_iff_ne, m.short_eq hp'.holds] at hzero
    exact hstep hp' (by omega)
  · obtain rfl : x = [] := eq_nil_of_length_eq_zero (by omega)
    exact hstep (by simpa using hinv1) (by simpa using hs)

/-- What of the long run comes before the next element of the short one is moved, and then that
element. -/
theorem Going.ensures_gallopLong (hp : m.Going n p)
    (hfind : ∀ {out y s l}, m.Inv out (y :: s) l p → l ≠ [] →
      Ensures find p (fun k p' => Splits C (m.rank · < m.rank y) (m.rank y ≤ m.rank ·) l k ∧
        m.Inv out (y :: s) l p') m.Exit) :
    Ensures (do
      let k ← find
      if k > 0 then do
        m.takeLong k
        exitIf (fun c => m.long c == 0) .drain
      m.stepShort
      pure k) p (fun _ p' => m.Going (n - 1) p') m.Exit := by
  obtain ⟨out, s, l, hinv, hs, hl, hsum⟩ := hp
  obtain ⟨y, s, rfl⟩ := exists_cons_of_length_pos (by omega : 0 < s.length)
  rw [length_cons] at hs hsum
  refine (hfind hinv hl).bind ?_
  rintro _ p1 ⟨⟨x, l, rfl, rfl, hsplit⟩, hinv1⟩
  have hstep : ∀ {p2}, m.Inv (out ++ x) (y :: s) l p2 → l ≠ [] →
      Ensures (do m.stepShort; pure x.length) p2 (fun _ p' => m.Going (n - 1) p') m.Exit := by
    intro p2 hinv2 hl2
    refine (hinv2.ensures_stepShort (ne_nil_of_length_pos (by omega)) fun hC =>
      (hsplit hC).2).bind ?_
    rintro - p3 ⟨hinv3, hs3⟩
    refine .pure ⟨_, _, _, hinv3, hs3, hl2, ?_⟩
    rw [length_append] at hsum
    omega
  split_ifs with hpos
  · obtain ⟨p', heq, hp'⟩ := hinv1.takeLong fun hC c hc d hd =>
      ((hsplit hC).1 c hc).trans_le ((hinv1.ordered hC).asc_short.rank_head_le hd)
    refine .bind_of_eq heq (hp'.ensures_exitLong.bind ?_)
    rintro - _ ⟨rfl, hne⟩
    exact hstep hp' hne
  · obtain rfl : x = [] := eq_nil_of_length_eq_zero (by omega)
    exact hstep (by simpa using hinv1) (by simpa using hl)

end

section Loops

variable {step : EStateM Stop (MergeState σ α × κ) Bool} {minGallop : Nat}
  {gallopA gallopB : EStateM Stop (MergeState σ α × κ) Nat}

/-- One element at least is moved. -/
def Moves (m : Merger σ α κ C) (x : EStateM Stop (MergeState σ α × κ) β) : Prop :=
  ∀ {n p}, m.Going n p → Ensures x p (fun _ p' => m.Going (n - 1) p') m.Exit

/-- Merging one element at a time moves at least one. -/
theorem Moves.straight (hstep : m.Moves step) {fuel before behind : Nat} (hn : n ≤ fuel)
    (hp : m.Going n p) :
    Ensures (straight step minGallop fuel before behind) p
      (fun _ p' => m.Going (n - 1) p') m.Exit := by
  induction fuel generalizing p n before behind with
  | zero =>
    obtain ⟨out, y, s, z, l, -, -, hsum⟩ := hp.exists_cons
    omega
  | succ fuel ih =>
    refine (hstep hp).bind fun first p' hp' => ?_
    split_ifs
    · exact .pure hp'
    · exact (ih (by omega) hp').mono (fun _ _ hq => hq.mono (by omega)) fun _ _ he => he
    · exact .pure hp'
    · exact (ih (by omega) hp').mono (fun _ _ hq => hq.mono (by omega)) fun _ _ he => he

variable (hA : m.Moves gallopA) (hB : m.Moves gallopB)
include hA hB

theorem Moves.galloping {fuel : Nat} (hn : n ≤ fuel) (hp : m.Going n p) :
    Ensures (galloping gallopA gallopB fuel minGallop) p (fun _ p' => m.Going n p') m.Exit := by
  induction fuel generalizing p n minGallop with
  | zero =>
    obtain ⟨out, y, s, z, l, -, -, hsum⟩ := hp.exists_cons
    omega
  | succ fuel ih =>
    refine .modify_bind _ ((hA (hp.setMinGallop _)).bind fun acount p1 hp1 => ?_)
    refine (hB hp1).bind fun bcount p2 hp2 => ?_
    split_ifs
    · exact .pure (hp2.mono (by omega))
    · exact (ih (by omega) hp2).mono (fun _ _ hq => hq.mono (by omega)) fun _ _ he => he

theorem Moves.rounds (hstep : m.Moves step) {fuel : Nat} (hp : m.Going fuel p) :
    Ensures (rounds step gallopA gallopB fuel minGallop) p (fun _ _ => False) m.Exit := by
  induction fuel generalizing p minGallop with
  | zero =>
    obtain ⟨out, y, s, z, l, -, -, hsum⟩ := hp.exists_cons
    omega
  | succ fuel ih =>
    refine (hstep.straight le_rfl hp).bind ?_
    rintro - p1 hp1
    refine (hA.galloping hB (Nat.le_succ fuel) hp1).bind ?_
    rintro minGallop p2 hp2
    exact .modify_bind _ (ih (hp2.setMinGallop _))

end Loops

/-- The body of a merge, from where the long run begins with the element that comes first. -/
theorem Inv.ensures_loop (hinv : m.Inv out s (z :: l) p) (hs : s ≠ [])
    (hz : C → ∀ c ∈ s, m.rank z < m.rank c) (hn : s.length + l.length ≤ n)
    {rounds : Nat → EStateM Stop (MergeState σ α × κ) Unit}
    (hrounds : ∀ {minGallop p'}, m.Going n p' →
      Ensures (rounds minGallop) p' (fun _ _ => False) m.Exit) :
    Ensures (do
      m.stepLong
      exitIf (fun c => m.short c == 1) .copyLast
      let p ← get
      rounds p.1.minGallop) p (fun _ _ => False) m.Exit := by
  refine (hinv.ensures_stepLong hz).bind ?_
  rintro - p1 ⟨hinv1, hl⟩
  refine hinv1.ensures_exitShort.bind ?_
  rintro - _ ⟨rfl, hone⟩
  have := length_pos_iff.mpr hs
  exact .get_bind (hrounds ⟨_, _, _, hinv1, by omega, hl, hn⟩)

/-! ## Finishing -/

/-- The loop, run on its cursors. -/
theorem ensures_attempt {s : MergeState σ α} {c : κ}
    {loop : EStateM Stop (MergeState σ α × κ) Unit} {E : Stop → MergeState σ α → Prop}
    (h : Ensures loop (s, c) (fun _ _ => False) m.Exit) :
    Ensures (attempt c loop) s (fun r s' => m.Exit (r.1.elim .aborted .returned) (s', r.2)) E := by
  obtain ⟨stop, p, hloop, hexit⟩ := h.exists_error
  rw [Ensures, attempt, hloop]
  obtain ⟨out, sh, l, hinv, hhow⟩ := hexit
  have hexit : m.Exit stop p := ⟨out, sh, l, hinv, hhow⟩
  rcases hhow with ⟨rfl, -⟩ | ⟨rfl, -⟩ | ⟨rfl, -⟩ <;> exact hexit

/-- The merge is finished as its loop was left. `P r` says that the elements are in their place
as in `r`. -/
theorem Exit.ensures_finish {t : MergeState σ α} {c : κ} {result : Option MergeEnd}
    (h : m.Exit (result.elim .aborted .returned) (t, c)) {putBack copyLast : MergeM σ α Unit}
    {P : List α → MergeState σ α → Prop}
    (hput : ∀ {out s l}, m.Holds out s l (t, c) →
      ∃ t', putBack t = .ok () t' ∧ P (out ++ (s ++ l)) t')
    (hcopy : ∀ {out y l}, m.Holds out [y] l (t, c) → (C → ∀ d ∈ l, m.rank d < m.rank y) →
      ∃ t', copyLast t = .ok () t' ∧ P (out ++ (l ++ [y])) t') :
    Ensures (finish copyLast putBack result) t (fun _ t' => ∃ r, P r t' ∧ (C → m.Asc r))
      fun stop t' => Aborts C stop ∧ ∃ r, P r t' := by
  obtain ⟨out, s, l, ⟨hholds, hordered⟩, hhow⟩ := h
  rcases result with _ | _ | _
  · obtain ⟨t', heq, hplaced⟩ := hput hholds
    exact .bind_of_eq heq (.throw ⟨⟨rfl, by simpa using hhow⟩, _, hplaced⟩)
  · obtain ⟨t', heq, hplaced⟩ := hput hholds
    refine .of_eq heq ⟨_, hplaced, fun hC => ?_⟩
    obtain ⟨hout, hs, -, hle, -, -⟩ := hordered hC
    obtain rfl : l = [] := by
      simp only [Option.elim_some, reduceCtorEq, Stop.returned.injEq, false_and, or_false, false_or,
        true_and] at hhow
      exact hhow hC
    rw [append_nil] at hle ⊢
    exact pairwise_append.mpr ⟨hout, hs, hle⟩
  obtain ⟨y, rfl⟩ : ∃ y, s = [y] := by
    simp only [Option.elim_some, reduceCtorEq, Stop.returned.injEq, false_and, false_or,
      true_and] at hhow
    exact length_eq_one_iff.mp hhow
  have hlt (hC : C) : ∀ d ∈ l, m.rank d < m.rank y := by
    obtain rfl : y = m.last := Option.some.inj (hordered hC).last
    exact (hordered hC).lt_last
  obtain ⟨t', heq, hplaced⟩ := hcopy hholds hlt
  refine .of_eq heq ⟨_, hplaced, fun hC => ?_⟩
  obtain ⟨hout, -, hl, hle, -, -⟩ := hordered hC
  refine pairwise_append.mpr ⟨hout, pairwise_append.mpr ⟨hl, pairwise_singleton ..,
    fun d hd e he => ?_⟩, fun d hd e he => hle d hd e (by simp at he ⊢; tauto)⟩
  obtain rfl : e = y := by simpa using he
  exact (hlt hC d hd).le

end Merger

end Monty.Sorting
