import Monty.Sorting.MergeHi
import Monty.Sorting.MergeLo

/-!
# The stack of runs

The pending runs lie one behind the other at the front of the ids, each ascending, and what is
behind them is not looked at yet (`Layout`). Every step of the sort keeps that: a merge makes one
run of two neighbours, a new run is found behind the others, and at the end there is a single run,
the whole slice. How the levels of the runs are computed matters for which runs are merged when, not
for what comes out.
-/

namespace Monty.Sorting

open Fallible Rearrange MergeState List

variable {σ α β : Type} {lt : Compare σ α} {C : Prop} {U : α → Prop} {key : α → Nat}

/-! ## Merging two neighbours -/

variable {a b : List α}

variable {s : MergeState σ α}

section Neighbours

variable {pre post x y : List α} {pending : List Run} {f : Frame α}

/-- A merge between what is in place already. -/
theorem Merged.widen (h : Merged C key f s) (hpre : f.pre = pre ++ x) (hpost : f.post = y ++ post)
    (horder : C → Ascending key x ∧ Ascending key y ∧ (∀ c ∈ x, ∀ d ∈ f.orig ++ y, key c ≤ key d) ∧
      ∀ c ∈ f.orig, ∀ d ∈ y, key c ≤ key d) :
    Merged C key ⟨x ++ (f.orig ++ y), f.l, f.pending, pre, post⟩ s := by
  obtain ⟨r, hids, hpending, hre, hasc⟩ := h
  refine ⟨x ++ (r ++ y), by simp [hids, hpre, hpost], hpending,
    (hre.append_right y).append_left x, fun hC => ?_⟩
  obtain ⟨hx, hy, hxd, hcy⟩ := horder hC
  refine ascending_append.mpr ⟨hx, ascending_append.mpr ⟨hasc hC, hy, fun c hc =>
    hcy c (hre.mem_iff.mp hc)⟩, fun c hc d hd => hxd c hc d ?_⟩
  rw [mem_append, hre.mem_iff] at hd
  exact mem_append.mpr hd

theorem MergeAborted.widen {stop : Stop} (h : MergeAborted C f stop s) (hpre : f.pre = pre ++ x)
    (hpost : f.post = y ++ post) :
    MergeAborted C ⟨x ++ (f.orig ++ y), f.l, f.pending, pre, post⟩ stop s := by
  obtain ⟨hstop, r, hids, hperm⟩ := h
  exact ⟨hstop, x ++ (r ++ y), by simp [hids, hpre, hpost], (hperm.append_right y).append_left x⟩

/-- Both merges, where the first element of the second run belongs first and the last element of the
first run belongs last. -/
theorem ensures_mergeInner (h : Follows lt C U key) {y z : α}
    (hU : C → ∀ c ∈ (a ++ [y]) ++ z :: b, U c) (hf : f.orig = (a ++ [y]) ++ z :: b)
    (hs : s.ids = f.pre ++ (f.orig ++ f.post)) (hpending : s.pending = f.pending)
    (horder : C → Ascending key (a ++ [y]) ∧ Ascending key (z :: b) ∧
      (∀ c ∈ a ++ [y], key z < key c) ∧ ∀ c ∈ z :: b, key c < key y) :
    Ensures (if (a ++ [y]).length ≤ (z :: b).length
        then mergeLo lt f.pre.length (a ++ [y]).length (z :: b).length
        else mergeHi lt f.pre.length (a ++ [y]).length (z :: b).length) s
      (fun _ s' => Merged C key f s') (MergeAborted C f) := by
  split_ifs
  · refine ensures_mergeLo (f := ⟨f.orig, y, f.pending, f.pre, f.post⟩) h hU hf hs hpending
      (by simp) fun hC => ?_
    obtain ⟨hfst, hsnd, hfirst, hlast⟩ := horder hC
    exact ⟨hfst, hsnd, ⟨a, rfl⟩, hlast, hfirst⟩
  · refine ensures_mergeHi (f := ⟨f.orig, z, f.pending, f.pre, f.post⟩) h hU hf hs hpending
      (by simp) fun hC => ?_
    obtain ⟨hfst, hsnd, hfirst, hlast⟩ := horder hC
    exact ⟨hfst, hsnd, ⟨b, rfl⟩, hfirst, hlast⟩

/-- Nothing is done where two runs are one already. -/
theorem merged_of_ascending (hs : s.ids = f.pre ++ (f.orig ++ f.post))
    (hpending : s.pending = f.pending) (hasc : C → Ascending key f.orig) : Merged C key f s :=
  ⟨f.orig, hs, hpending, .refl _, hasc⟩

theorem ensures_asking {x : EStateM Stop σ β} {Q : β → Prop} (hx : Returns x Q (Aborts C))
    (hs : s.ids = f.pre ++ (f.orig ++ f.post)) :
    Ensures (asking x) s (fun b s' => Q b ∧ ∃ cmp, s' = { s with cmp }) (MergeAborted C f) := by
  refine (hx s.cmp).zoom.mono ?_ ?_
  · rintro b _ ⟨cmp, rfl, hb⟩
    exact ⟨hb, cmp, rfl⟩
  · rintro stop _ ⟨cmp, rfl, hstop⟩
    exact ⟨hstop, f.orig, hs, .refl _⟩

/-- The second half of a merge, once the elements `x` at the front of the first run are known to be
in place. -/
theorem ensures_mergeTrimmed (h : Follows lt C U key) {x : List α} {y z : α}
    (hU : C → ∀ c ∈ (a ++ [y]) ++ z :: b, U c) (hf : f.orig = x ++ ((a ++ [y]) ++ z :: b))
    (hs : s.ids = f.pre ++ (f.orig ++ f.post)) (hpending : s.pending = f.pending)
    (hasc : C → Ascending key (x ++ (a ++ [y])) ∧ Ascending key (z :: b))
    (hle : C → (∀ c ∈ x, key c ≤ key z) ∧ ∀ c ∈ a ++ [y], key z < key c) :
    Ensures (do
        let nb ← asking (gallopLeft lt y (z :: b) ((z :: b).length - 1))
        if nb = 0 then pure ()
        else if (a ++ [y]).length ≤ nb then
          mergeLo lt (f.pre.length + x.length) (a ++ [y]).length nb
        else mergeHi lt (f.pre.length + x.length) (a ++ [y]).length nb) s
      (fun _ s' => Merged C key f s') (MergeAborted C f) := by
  refine (ensures_asking (returns_gallopLeft h (fun hC => hU hC y (by simp))
    (fun hC c hc => hU hC c (mem_append_right _ hc)) (fun hC => (hasc hC).2)
    (by simp : (z :: b).length - 1 < (z :: b).length)) hs).bind ?_
  rintro k _ ⟨⟨hk, hge⟩, cmp, rfl⟩
  by_cases hnb : k = 0
  · rw [if_pos hnb]
    refine .pure (merged_of_ascending hs hpending fun hC => ?_)
    rw [hf, ← append_assoc]
    refine ascending_append.mpr ⟨(hasc hC).1, (hasc hC).2, fun c hc d hd => ?_⟩
    rw [← append_assoc] at hc
    have hcy := (by simpa using (hasc hC).1 : Ascending key ((x ++ a) ++ [y])).le_key_last hc
    exact hcy.trans ((hge hC).2 d (by simpa [hnb] using hd))
  obtain ⟨k, rfl⟩ : ∃ m, k = m + 1 := ⟨k - 1, by omega⟩
  rw [take_succ_cons, drop_succ_cons] at hge
  obtain ⟨b, w, rfl, rfl⟩ : ∃ b' w, b = b' ++ w ∧ b'.length = k :=
    ⟨b.take k, b.drop k, (take_append_drop k b).symm, by simpa using hk⟩
  rw [take_left, drop_left] at hge
  have hfst (hC : C) := ascending_append.mp (hasc hC).1
  have hsnd (hC : C) := ascending_append.mp
    (by simpa using (hasc hC).2 : Ascending key ((z :: b) ++ w))
  have hsub : List.Sublist ((a ++ [y]) ++ z :: b) ((a ++ [y]) ++ z :: (b ++ w)) :=
    ((sublist_append_left b w).cons_cons z).append_left _
  have hinner : f.orig = x ++ (((a ++ [y]) ++ z :: b) ++ w) := by simp [hf]
  rw [if_neg hnb, ← length_cons, ← length_append]
  refine (ensures_mergeInner (s := { s with cmp }) (f := ⟨(a ++ [y]) ++ z :: b, y, f.pending,
    f.pre ++ x, w ++ f.post⟩) h (fun hC c hc => hU hC c (hsub.subset hc)) rfl (by simp [hs, hinner])
    hpending fun hC => ⟨(hfst hC).2.1, (hsnd hC).1, (hle hC).2, (hge hC).1⟩).mono ?_ ?_
  · intro _ s' hs'
    have hwide : Merged C key
        ⟨x ++ (((a ++ [y]) ++ z :: b) ++ w), y, f.pending, f.pre, f.post⟩ s' :=
      hs'.widen rfl rfl fun hC => ?_
    · obtain ⟨r, hr⟩ := hwide
      exact ⟨r, by simpa [hinner] using hr⟩
    refine ⟨(hfst hC).1, (hsnd hC).2.1, fun c hc d hd => ?_, fun c hc d hd => ?_⟩
    · rw [append_assoc] at hd
      rcases mem_append.mp hd with hd | hd
      · exact (hfst hC).2.2 c hc d hd
      · exact ((hle hC).1 c hc).trans ((hasc hC).2.key_head_le hd)
    · rcases mem_append.mp hc with hc | hc
      · exact ((hfst hC).2.1.le_key_last hc).trans ((hge hC).2 d hd)
      · exact (hsnd hC).2.2 c hc d hd
  · intro stop s' hs'
    have hwide : MergeAborted C ⟨x ++ (((a ++ [y]) ++ z :: b) ++ w), y, f.pending, f.pre, f.post⟩
        stop s' := hs'.widen rfl rfl
    obtain ⟨hstop, r, hr⟩ := hwide
    exact ⟨hstop, r, by simpa [hinner] using hr⟩

/-- **Two neighbouring runs are merged.** -/
theorem ensures_mergeRuns (h : Follows lt C U key) {ra rb : Run}
    (hra : ra.base = f.pre.length ∧ ra.len = a.length)
    (hrb : rb.base = f.pre.length + a.length ∧ rb.len = b.length)
    (hU : C → ∀ c ∈ a ++ b, U c) (hf : f.orig = a ++ b)
    (hs : s.ids = f.pre ++ (f.orig ++ f.post)) (hpending : s.pending = f.pending) (ha : a ≠ [])
    (hb : b ≠ []) (hasc : C → Ascending key a ∧ Ascending key b) :
    Ensures (mergeRuns lt ra rb) s (fun _ s' => Merged C key f s') (MergeAborted C f) := by
  obtain ⟨z, b, rfl⟩ := exists_cons_of_ne_nil hb
  have hids : s.ids = f.pre ++ (a ++ (z :: b ++ f.post)) := by simp [hs, hf]
  have hids' : s.ids = (f.pre ++ a) ++ (z :: b ++ f.post) := by simp [hs, hf]
  have hfirst : (item s.ids rb.base : MergeM σ α α) = pure z := by
    rw [hids', hrb.1]
    exact item_append (by simp)
  have hslice : (slice s.ids ra.base ra.len : MergeM σ α (List α)) = pure a := by
    rw [hids, hra.1, hra.2]
    exact slice_append rfl rfl
  have hslice' : (slice s.ids rb.base rb.len : MergeM σ α (List α)) = pure (z :: b) := by
    rw [hids', hrb.1, hrb.2]
    exact slice_append (by simp) rfl
  refine .get_bind ?_
  rw [hfirst, pure_bind, hslice, pure_bind]
  refine (ensures_asking (returns_gallopRight h (fun hC => hU hC z (by simp))
    (fun hC c hc => hU hC c (by simp [hc])) (fun hC => (hasc hC).1)
    (length_pos_iff.mpr ha)) hs).bind ?_
  rintro k _ ⟨⟨hk, hle⟩, cmp, rfl⟩
  rw [hra.2, sub_eq hk, pure_bind]
  obtain ⟨x, a, rfl, rfl⟩ : ∃ x a', a = x ++ a' ∧ x.length = k :=
    ⟨a.take k, a.drop k, (take_append_drop k a).symm, by simpa using hk⟩
  simp only [take_left', drop_left'] at hle
  rw [length_append, Nat.add_sub_cancel_left]
  split_ifs with hna
  · obtain rfl : a = [] := eq_nil_of_length_eq_zero hna
    refine .pure (merged_of_ascending hs hpending fun hC => ?_)
    rw [hf, ascending_append, append_nil]
    exact ⟨(ascending_append.mp (hasc hC).1).1, (hasc hC).2, fun c hc d hd =>
      ((hle hC).1 c hc).trans ((hasc hC).2.key_head_le hd)⟩
  obtain ⟨a, y, rfl⟩ := eq_nil_or_concat' a |>.resolve_left fun hnil => hna (by simp [hnil])
  have hlast : (item s.ids (ra.base + x.length + (a ++ [y]).length - 1) : MergeM σ α α) =
      pure y := by
    have hids'' : s.ids = (f.pre ++ (x ++ a)) ++ y :: (z :: b ++ f.post) := by simp [hids]
    rw [hids'', hra.1]
    exact item_append (by simp; omega)
  rw [sub_eq (by simp; omega), pure_bind, hlast, pure_bind, hslice', pure_bind, hrb.2,
    sub_eq (by simp), pure_bind, hra.1]
  exact ensures_mergeTrimmed h (fun hC c hc => hU hC c (by simp at hc ⊢; tauto))
    (by simp [hf]) hs hpending hasc hle

end Neighbours

/-! ## The pending runs -/

/-- Where segments that lie one behind the other begin, and how long they are. -/
def places : Nat → List (List α) → List (Nat × Nat)
  | _, [] => []
  | base, seg :: segs => (base, seg.length) :: places (base + seg.length) segs

theorem places_append (base : Nat) (segs segs' : List (List α)) :
    places base (segs ++ segs') = places base segs ++ places
      (base + segs.flatten.length) segs' := by
  induction segs generalizing base with
  | nil => simp [places]
  | cons seg segs ih => simp [places, ih, Nat.add_assoc]

theorem length_places (base : Nat) (segs : List (List α)) :
    (places base segs).length = segs.length := by
  induction segs generalizing base with
  | nil => rfl
  | cons seg segs ih => simp [places, ih]

/-- The pending runs are the segments at the front of the ids, which as a whole are a rearrangement
of `orig`. -/
structure Layout (C : Prop) (key : α → Nat) (orig : List α) (segs : List (List α)) (rest : List α)
    (s : MergeState σ α) : Prop where
  ids : s.ids = segs.flatten ++ rest
  places : (s.pending.map fun r => (r.base, r.len)) = places 0 segs
  runs : ∀ seg ∈ segs, seg ≠ [] ∧ (C → Ascending key seg)
  re : Rearranged C key s.ids orig

variable {fuel n : Nat}

variable {orig rest : List α} {segs : List (List α)} {power : Nat}

section Stack

variable {segs' : List (List α)}

theorem Layout.length_pending (h : Layout C key orig segs rest s) :
    s.pending.length = segs.length := by
  rw [← length_places 0, ← h.places, length_map]

/-- The entries of two neighbours on the stack. -/
theorem Layout.exists_neighbours (h : Layout C key orig (segs ++ a :: b :: segs') rest s) :
    ∃ l ra rb l', s.pending = l ++ ra :: rb :: l' ∧ l.length = segs.length ∧
      l'.length = segs'.length ∧ (ra.base = segs.flatten.length ∧ ra.len = a.length) ∧
      (rb.base = segs.flatten.length + a.length ∧ rb.len = b.length) ∧
      ((l ++ { ra with len := ra.len + rb.len } :: l').map fun r => (r.base, r.len)) =
        Sorting.places 0 (segs ++ (a ++ b) :: segs') := by
  have hplaces := h.places
  rw [places_append, Sorting.places, Sorting.places, Nat.zero_add] at hplaces
  obtain ⟨l, l', hpending, hl, hl'⟩ := map_eq_append_iff.mp hplaces
  obtain ⟨ra, l', rfl, hra, hl'⟩ := map_eq_cons_iff.mp hl'
  obtain ⟨rb, l', rfl, hrb, hl'⟩ := map_eq_cons_iff.mp hl'
  rw [Prod.mk.injEq] at hra hrb
  refine ⟨l, ra, rb, l', hpending, ?_, ?_, hra, hrb, ?_⟩
  · simpa [length_places] using congrArg List.length hl
  · simpa [length_places] using congrArg List.length hl'
  · rw [places_append, Sorting.places, map_append, map_cons, hl, hl']
    simp [hra, hrb, Nat.add_assoc]

/-- Two neighbours of the stack, of which at most one run is above. -/
theorem mergedPending_eq {l l' : List Run} (a b : Run) (hl' : l'.length ≤ 1) :
    mergedPending (l ++ a :: b :: l') l.length a b =
      l ++ { a with len := a.len + b.len } :: l' := by
  rcases l' with _ | ⟨r, _ | ⟨r', l'⟩⟩
  · simp [mergedPending]
  · simp [mergedPending]
  · simp at hl'

/-- What two neighbours became takes their place. -/
theorem Layout.joined {r : List α} {s' : MergeState σ α}
    (h : Layout C key orig (segs ++ a :: b :: segs') rest s)
    (hids : s'.ids = segs.flatten ++ (r ++ (segs'.flatten ++ rest)))
    (hplaces : (s'.pending.map fun r => (r.base, r.len)) =
      Sorting.places 0 (segs ++ (a ++ b) :: segs'))
    (hre : Rearranged C key r (a ++ b)) (hasc : C → Ascending key r) :
    Layout C key orig (segs ++ r :: segs') rest s' := by
  have hlen : r.length = (a ++ b).length := hre.length_eq
  have hne : a ≠ [] := (h.runs a (by simp)).1
  refine ⟨by simp [hids], ?_, fun seg hseg => ?_, .trans ?_ h.re⟩
  · rw [hplaces, places_append, places_append, Sorting.places, Sorting.places, hlen]
  · rcases mem_append.mp hseg with hseg | hseg
    · exact h.runs seg (by simp [hseg])
    rcases mem_cons.mp hseg with rfl | hseg
    · refine ⟨fun hnil => hne ?_, hasc⟩
      rw [hnil, length_nil, eq_comm, length_eq_zero_iff, append_eq_nil_iff] at hlen
      exact hlen.1
    · exact h.runs seg (by simp [hseg])
  · have hs : s.ids = segs.flatten ++ ((a ++ b) ++ (segs'.flatten ++ rest)) := by simp [h.ids]
    rw [hids, hs]
    exact (hre.append_right _).append_left _

variable (h : Follows lt C U key) (hU : C → ∀ y ∈ orig, U y)
include h hU

/-- **Merging two pending runs leaves one.** -/
theorem ensures_mergeAt (hsegs' : segs'.length ≤ 1)
    (hs : Layout C key orig (segs ++ a :: b :: segs') rest s) :
    Ensures (mergeAt lt segs.length) s
      (fun _ s' => ∃ r, Layout C key orig (segs ++ r :: segs') rest s')
      fun stop s' => Fails C orig stop s'.ids := by
  obtain ⟨l, ra, rb, l', hpending, hlen, hlen', hra, hrb, hjoined⟩ := hs.exists_neighbours
  have ha : (item s.pending segs.length : MergeM σ α Run) = pure ra := by
    rw [hpending]
    exact item_append hlen.symm
  have hb : (item s.pending (segs.length + 1) : MergeM σ α Run) = pure rb := by
    rw [hpending, append_cons]
    exact item_append (by simp [hlen])
  refine .get_bind ?_
  rw [ha, pure_bind, hb, pure_bind]
  refine .modify_bind _ ?_
  rw [hpending, ← hlen, mergedPending_eq ra rb (by omega)]
  have hids : s.ids = segs.flatten ++ ((a ++ b) ++ (segs'.flatten ++ rest)) := by simp [hs.ids]
  have hmem (c : α) (hc : c ∈ a ++ b) : c ∈ orig := hs.re.mem_iff.mp (by
    rw [hids]
    exact mem_append_right _ (mem_append_left _ hc))
  have hruna := hs.runs a (by simp)
  have hrunb := hs.runs b (by simp)
  refine (ensures_mergeRuns
    (s := { s with pending := l ++ { ra with len := ra.len + rb.len } :: l' })
    (f := ⟨a ++ b, a.head hruna.1, _, segs.flatten, segs'.flatten ++ rest⟩) h hra hrb
    (fun hC c hc => hU hC c (hmem c hc)) rfl hids rfl hruna.1 hrunb.1
    fun hC => ⟨hruna.2 hC, hrunb.2 hC⟩).mono ?_ ?_
  · rintro - s' ⟨r, hr, hpending', hre, hasc⟩
    exact ⟨r, hs.joined hr (by rw [hpending', hjoined]) hre hasc⟩
  · rintro stop s' ⟨hstop, r, hr, hperm⟩
    refine ⟨hstop, .trans ?_ hs.re.perm⟩
    rw [hr, hids]
    exact (hperm.append_right _).append_left _

theorem ensures_mergeAt_index {i : Nat} (hi : i + 2 ≤ segs.length) (hi' : segs.length ≤ i + 3)
    (hs : Layout C key orig segs rest s) :
    Ensures (mergeAt lt i) s
      (fun _ s' => ∃ segs', segs'.length + 1 = segs.length ∧ Layout C key orig segs' rest s')
      fun stop s' => Fails C orig stop s'.ids := by
  have hsplit : segs = segs.take i ++ segs[i] :: segs[i + 1] :: segs.drop (i + 2) := by
    rw [← drop_eq_getElem_cons (by omega), ← drop_eq_getElem_cons (by omega), take_append_drop]
  have hlen : (segs.take i).length = i := by
    rw [length_take]
    omega
  rw [hsplit] at hs
  refine (hlen ▸ ensures_mergeAt h hU (by rw [length_drop]; omega) hs).mono ?_ fun _ _ he => he
  rintro - s' ⟨r, hr⟩
  refine ⟨_, ?_, hr⟩
  rw [length_append, length_cons, hlen, length_drop]
  omega

/-- Merging what is deeper leaves the stack in order, and not empty. -/
theorem ensures_collapseAbove (hfuel : segs.length ≤ fuel) (hne : segs ≠ [])
    (hs : Layout C key orig segs rest s) :
    Ensures (collapseAbove lt power fuel) s
      (fun _ s' => ∃ segs', segs' ≠ [] ∧ Layout C key orig segs' rest s')
      fun stop s' => Fails C orig stop s'.ids := by
  have hpos := length_pos_iff.mpr hne
  induction fuel generalizing segs s with
  | zero => omega
  | succ fuel ih =>
    have hlen := hs.length_pending
    refine .get_bind ?_
    by_cases hmany : s.pending.length > 1
    · rw [if_pos hmany, sub_eq (by omega), pure_bind, item_eq (by omega), pure_bind]
      split_ifs
      · refine (ensures_mergeAt_index h hU (by omega) (by omega) hs).bind ?_
        rintro - s' ⟨segs', hlen', hs'⟩
        have hpos' : 0 < segs'.length := by omega
        exact ih (by omega) (ne_nil_of_length_pos hpos') hs' hpos'
      · exact .pure ⟨segs, hne, hs⟩
    · rw [if_neg hmany]
      exact .pure ⟨segs, hne, hs⟩

omit h hU in
theorem ensures_setTopPower (hne : segs ≠ []) (hs : Layout C key orig segs rest s) :
    Ensures (setTopPower power) s (fun _ s' => Layout C key orig segs rest s')
      fun stop s' => Fails C orig stop s'.ids := by
  have hpos := length_pos_iff.mpr hne
  have hlen := hs.length_pending
  refine .get_bind ?_
  rw [sub_eq (by omega), pure_bind, item_eq (by omega), pure_bind]
  refine .of_eq (modify_apply _) ⟨hs.ids, ?_, hs.runs, hs.re⟩
  have hself := set_getElem_self (by rw [length_map]; omega :
    s.pending.length - 1 < (s.pending.map fun r => (r.base, r.len)).length)
  rw [getElem_map] at hself
  rw [← hs.places, map_set, hself]

omit h hU in
/-- **The level of a boundary is found**: the distance of the scaled midpoints doubles with each
round, and stays below twice the length. -/
theorem powerloopFrom_eq {τ : Type} {result a b : Nat} (hab : a < b) (hb : b < 2 * n)
    (hfuel : 2 * n ≤ fuel + (b - a)) :
    ∃ p, (powerloopFrom n fuel result a b : EStateM Stop τ Nat) = pure p := by
  induction fuel generalizing result a b with
  | zero => omega
  | succ fuel ih =>
    rw [powerloopFrom]
    split_ifs with ha hb'
    · rw [sub_eq ha, pure_bind, sub_eq (by omega), pure_bind]
      exact ih (by omega) (by omega) (by omega)
    · exact ⟨_, rfl⟩
    · exact ih (by omega) (by omega) (by omega)

omit h hU in
theorem powerloop_eq {s1 n1 n2 : Nat} (h1 : 0 < n1) (h2 : 0 < n2) (hn : s1 + n1 + n2 ≤ n) :
    ∃ p, (powerloop s1 n1 n2 n : MergeM σ α Nat) = pure p :=
  powerloopFrom_eq (by omega) (by omega) (by omega)

omit h hU in
theorem Layout.getLast_pending {r : Run} (hs : Layout C key orig segs rest s)
    (hr : s.pending.getLast? = some r) :
    segs ≠ [] ∧ 0 < r.len ∧ r.base + r.len = segs.flatten.length := by
  obtain ⟨l, hl⟩ := List.getLast?_eq_some_iff.mp hr
  have hplaces := hs.places
  rw [hl, map_append] at hplaces
  rcases eq_nil_or_concat' segs with rfl | ⟨segs, seg, rfl⟩
  · simp [Sorting.places] at hplaces
  rw [places_append] at hplaces
  obtain ⟨hbase, hlen⟩ : r.base = segs.flatten.length ∧ r.len = seg.length := by
    simpa [Sorting.places] using (append_inj' hplaces rfl).2
  refine ⟨by simp, hlen ▸ length_pos_iff.mpr (hs.runs seg (by simp)).1, ?_⟩
  simp [hbase, hlen]

theorem ensures_foundNewRun (hpos : 0 < n) (hn : n ≤ rest.length)
    (hs : Layout C key orig segs rest s) :
    Ensures (foundNewRun lt orig.length n) s (fun _ s' => ∃ segs', Layout C key orig segs' rest s')
      fun stop s' => Fails C orig stop s'.ids := by
  have hlen := hs.re.length_eq
  rw [hs.ids, length_append] at hlen
  refine .get_bind ?_
  cases hlast : s.pending.getLast? with
  | none => exact .pure ⟨segs, hs⟩
  | some r =>
    obtain ⟨hne, hr, hend⟩ := hs.getLast_pending hlast
    obtain ⟨power, hpower⟩ : ∃ p,
        (powerloop r.base r.len n orig.length : MergeM σ α Nat) = pure p :=
      powerloop_eq hr hpos (by omega)
    simp only
    rw [hpower, pure_bind]
    refine (ensures_collapseAbove h hU hs.length_pending.ge hne hs).bind ?_
    rintro - s' ⟨segs', hne', hs'⟩
    exact (ensures_setTopPower hne' hs').mono (fun _ _ hs'' => ⟨segs', hs''⟩) fun _ _ he => he

omit h hU in
/-- Which runs are merged at the end: two of the last three. -/
theorem forceIndex_eq {pending : List Run} (hmany : pending.length > 1) :
    ∃ i, i + 2 ≤ pending.length ∧ pending.length ≤ i + 3 ∧
      (forceIndex pending : MergeM σ α Nat) = pure i := by
  rw [forceIndex, sub_eq (by omega), pure_bind]
  split_ifs with hn
  · rw [item_eq (by omega), pure_bind, item_eq (by omega), pure_bind]
    split_ifs
    · exact ⟨_, by omega, by omega, sub_eq (by omega)⟩
    · exact ⟨_, by omega, by omega, rfl⟩
  · exact ⟨_, by omega, by omega, rfl⟩

theorem ensures_mergeForceCollapse (hfuel : segs.length < fuel)
    (hs : Layout C key orig segs rest s) :
    Ensures (mergeForceCollapse lt fuel) s
      (fun _ s' => ∃ segs', segs'.length ≤ 1 ∧ Layout C key orig segs' rest s')
      fun stop s' => Fails C orig stop s'.ids := by
  induction fuel generalizing segs s with
  | zero => omega
  | succ fuel ih =>
    have hlen := hs.length_pending
    refine .get_bind ?_
    by_cases hmany : s.pending.length > 1
    · obtain ⟨i, hi, hi', hindex⟩ := forceIndex_eq hmany
      rw [if_pos hmany, hindex, pure_bind]
      refine (ensures_mergeAt_index h hU (by omega) (by omega) hs).bind ?_
      rintro - s' ⟨segs', hlen', hs'⟩
      exact ih (by omega) hs'
    · rw [if_neg hmany]
      exact .pure ⟨segs, by omega, hs⟩

end Stack

/-! ## The sort -/

section

variable {prog : SliceM σ α β}

theorem ensures_onSlice {x y z : List α} {lo len : Nat}
    {Q : β → Slice σ α → Prop} {E : Stop → Slice σ α → Prop} (hs : s.ids = x ++ (y ++ z))
    (hlo : lo = x.length) (hlen : len = y.length) (hprog : Ensures prog ⟨s.cmp, y⟩ Q E) :
    Ensures (onSlice lo len prog) s
      (fun b s' => ∃ t : Slice σ α, s' = { s with cmp := t.cmp, ids := x ++ (t.items ++ z) } ∧
        Q b t)
      fun stop s' => ∃ t : Slice σ α,
        s' = { s with cmp := t.cmp, ids := x ++ (t.items ++ z) } ∧ E stop t := by
  have hupdate (t : Slice σ α) : s.ids.take lo ++ t.items ++ s.ids.drop (lo + len) =
      x ++ (t.items ++ z) := by
    rw [hs, hlo, hlen, take_left, ← length_append, ← append_assoc x, drop_left, append_assoc]
  refine .get_bind ?_
  rw [hs, slice_append hlo hlen, pure_bind]
  refine .mono (.zoom hprog) ?_ ?_
  · rintro b _ ⟨t, rfl, hQ⟩
    exact ⟨t, by rw [hupdate], hQ⟩
  · rintro stop _ ⟨t, rfl, hE⟩
    exact ⟨t, by rw [hupdate], hE⟩

/-- The front of the rest is rearranged in place. -/
theorem Layout.ensures_onSlice {y z : List α} {len : Nat}
    {Q : β → List α → Prop} (hs : Layout C key orig segs (y ++ z) s) (hlen : len = y.length)
    (hprog : Ensures prog ⟨s.cmp, y⟩ (fun b t => Rearranged C key t.items y ∧ Q b t.items)
      fun stop t => Fails C y stop t.items) :
    Ensures (onSlice segs.flatten.length len prog) s
      (fun b s' => ∃ y', Layout C key orig segs (y' ++ z) s' ∧ Rearranged C key y' y ∧ Q b y')
      fun stop s' => Fails C orig stop s'.ids := by
  refine (Sorting.ensures_onSlice hs.ids rfl hlen hprog).mono ?_ ?_
  · rintro b _ ⟨t, rfl, hre, hQ⟩
    refine ⟨t.items, ⟨rfl, hs.places, hs.runs, Rearranged.trans ?_ hs.re⟩, hre, hQ⟩
    rw [hs.ids]
    exact (hre.append_right z).append_left _
  · rintro stop _ ⟨t, rfl, hstop, hperm⟩
    refine ⟨hstop, .trans ?_ hs.re.perm⟩
    rw [hs.ids]
    exact (hperm.append_right z).append_left _

def BeginsWithRun (C : Prop) (key : α → Nat) (rest : List α) (n : Nat) : Prop :=
  0 < n ∧ n ≤ rest.length ∧ (C → Ascending key (rest.take n))

section

variable (hs : Layout C key orig segs rest s)

include hs

/-- A run found behind the others goes onto the stack. -/
theorem Layout.pushed (hrun : BeginsWithRun C key rest n) :
    Layout C key orig (segs ++ [rest.take n]) (rest.drop n)
      { s with pending := s.pending ++ [⟨segs.flatten.length, n, 0⟩] } := by
  obtain ⟨hpos, hn, hasc⟩ := hrun
  refine ⟨by simp [hs.ids], ?_, fun seg hseg => ?_, hs.re⟩
  · rw [map_append, hs.places, places_append]
    simp [Sorting.places, hn]
  · rcases mem_append.mp hseg with hseg | hseg
    · exact hs.runs seg hseg
    · obtain rfl : seg = rest.take n := by simpa using hseg
      exact ⟨ne_nil_of_length_pos (by rw [length_take]; omega), hasc⟩

theorem Layout.mem_orig {y : α} (hy : y ∈ rest) : y ∈ orig := by
  refine hs.re.mem_iff.mp ?_
  rw [hs.ids]
  exact mem_append_right _ hy

theorem Layout.length_orig : segs.flatten.length + rest.length = orig.length := by
  rw [← hs.re.length_eq, hs.ids, length_append]

end

variable (h : Follows lt C U key) (hU : C → ∀ y ∈ orig, U y)
include h hU

theorem ensures_countNext (hne : rest ≠ []) (hs : Layout C key orig segs rest s) :
    Ensures (onSlice segs.flatten.length rest.length (countRun lt)) s
      (fun n s' => ∃ rest', Layout C key orig segs rest' s' ∧ BeginsWithRun C key rest' n)
      fun stop s' => Fails C orig stop s'.ids := by
  have hs' : Layout C key orig segs (rest ++ []) s := by rwa [append_nil]
  have hcount : Ensures (countRun lt) ⟨s.cmp, rest⟩
      (fun n t => Rearranged C key t.items rest ∧ BeginsWithRun C key t.items n)
      fun stop t => Fails C rest stop t.items := by
    refine (ensures_countRun h (fun hC y hy => hU hC y (hs.mem_orig hy)) hne).mono ?_
      fun _ _ he => he
    rintro n t ⟨hpos, hn, hre, hasc⟩
    exact ⟨hre, hpos, hre.length_eq ▸ hn, hasc⟩
  refine (hs'.ensures_onSlice (Q := fun n y => BeginsWithRun C key y n) rfl hcount).mono ?_
    fun _ _ he => he
  rintro n s' ⟨rest', hrest', -, hrun⟩
  exact ⟨rest', by rwa [append_nil] at hrest', hrun⟩

theorem ensures_extendRun {minrun : Nat} (hs : Layout C key orig segs rest s)
    (hrun : BeginsWithRun C key rest n) :
    Ensures (extendRun lt minrun segs.flatten.length rest.length n) s
      (fun m s' => ∃ rest', Layout C key orig segs rest' s' ∧ BeginsWithRun C key rest' m)
      fun stop s' => Fails C orig stop s'.ids := by
  obtain ⟨hpos, hn, hasc⟩ := hrun
  rw [extendRun]
  split_ifs with hshort
  · have hlen : (rest.take (min rest.length minrun)).length = min rest.length minrun := by
      rw [length_take]
      omega
    have hs' : Layout C key orig segs
        (rest.take (min rest.length minrun) ++ rest.drop (min rest.length minrun)) s := by
      rwa [take_append_drop]
    have hasc' (hC : C) : Ascending key ((rest.take (min rest.length minrun)).take n) := by
      rw [take_take, min_eq_left (by omega)]
      exact hasc hC
    have hsorted := ensures_binarySort (t := ⟨s.cmp, rest.take (min rest.length minrun)⟩) h
      (fun hC y hy => hU hC y (hs.mem_orig (mem_of_mem_take hy))) (by rw [hlen]; omega)
      (ne_nil_of_length_pos (by rw [hlen]; omega)) hasc'
    refine (hs'.ensures_onSlice (Q := fun _ y => C → Ascending key y) hlen.symm hsorted).bind ?_
    rintro - s' ⟨y, hy, hre, hascy⟩
    have hleny : y.length = min rest.length minrun := hre.length_eq.trans hlen
    refine .pure ⟨_, hy, by omega, ?_, fun hC => ?_⟩
    · rw [length_append]
      omega
    · rw [← hleny, take_left]
      exact hascy hC
  · exact .pure ⟨rest, hs, hpos, hn, hasc⟩

/-- **The runs of a slice are found and put on the stack.** -/
theorem ensures_sortRuns {minrun : Nat} (hfuel : rest.length < fuel)
    (hs : Layout C key orig segs rest s) :
    Ensures (sortRuns lt orig.length minrun fuel segs.flatten.length) s
      (fun _ s' => ∃ segs', Layout C key orig segs' [] s') fun stop s' => Fails C orig
        stop s'.ids := by
  induction fuel generalizing segs rest s with
  | zero => omega
  | succ fuel ih =>
    have hlen := hs.length_orig
    rw [sortRuns]
    split_ifs with hlo
    · have hremaining : orig.length - segs.flatten.length = rest.length := by omega
      rw [sub_eq hlo.le, pure_bind, hremaining]
      refine (ensures_countNext h hU (ne_nil_of_length_pos (by omega)) hs).bind ?_
      rintro n s₁ ⟨rest1, hs1, hrun1⟩
      have hlen1 : rest.length = rest1.length := by
        have := hs1.length_orig
        omega
      rw [hlen1]
      refine (ensures_extendRun h hU hs1 hrun1).bind ?_
      rintro m s2 ⟨rest2, hs2, hrun2⟩
      refine (ensures_foundNewRun h hU hrun2.1 hrun2.2.1 hs2).bind ?_
      rintro - s3 ⟨segs3, hs3⟩
      have hlen2 := hs2.length_orig
      have hlen3 := hs3.length_orig
      have hflat : segs.flatten.length = segs3.flatten.length := by omega
      have hpushed := hs3.pushed hrun2
      have hnext : segs.flatten.length + m = (segs3 ++ [rest2.take m]).flatten.length := by
        have := hrun2.2.1
        simp only [flatten_append, flatten_singleton, length_append, length_take]
        omega
      refine .modify_bind _ ?_
      rw [hnext, hflat]
      refine ih ?_ hpushed
      have := hrun2.1
      rw [length_drop]
      omega
    · obtain rfl : rest = [] := eq_nil_of_length_eq_zero (by omega)
      exact .pure ⟨segs, hs⟩

/-- What is left at the end is a single run. -/
theorem ensures_sortMany (hs : s.ids = orig) (hpending : s.pending = []) :
    Ensures (sortMany lt orig.length) s
      (fun _ s' => Rearranged C key s'.ids orig ∧ (C → Ascending key s'.ids))
      fun stop s' => Fails C orig stop s'.ids := by
  have hstart : Layout C key orig [] orig s :=
    ⟨hs, by simp [hpending, places], by simp, by rw [hs]; exact .refl _⟩
  refine (ensures_sortRuns h hU (Nat.lt_succ_self _) hstart).bind ?_
  rintro - s' ⟨segs, hs'⟩
  refine .get_bind ((ensures_mergeForceCollapse h hU
    (by rw [hs'.length_pending]; exact Nat.lt_succ_self _) hs').mono ?_ fun _ _ he => he)
  rintro - s'' ⟨segs', hone, hs''⟩
  refine ⟨hs''.re, fun hC => ?_⟩
  rw [hs''.ids, append_nil]
  rcases segs' with _ | ⟨seg, _ | ⟨seg', segs'⟩⟩
  · exact ascending_nil
  · simpa using (hs''.runs seg (by simp)).2 hC
  · simp at hone

end

/-- **Timsort sorts stably** with an honest comparison, and with any comparison it does nothing
worse than to leave a permutation. -/
theorem ensures_timsort (h : Follows lt C U key) {t : Slice σ α} (hU : C → ∀ y ∈ t.items, U y) :
    Ensures (timsort lt) t
      (fun _ t' => Rearranged C key t'.items t.items ∧ (C → Ascending key t'.items))
      fun stop t' => Fails C t.items stop t'.items := by
  rw [Ensures, timsort]
  split_ifs with hshort
  · refine ⟨.refl _, fun _ => ?_⟩
    rcases hitems : t.items with _ | ⟨x, _ | ⟨y, xs⟩⟩
    · exact ascending_nil
    · exact ascending_singleton x
    · exact absurd hshort (by simp [hitems])
  have hmany := ensures_sortMany (s := ⟨t.cmp, t.items, minGallopStart, [], []⟩) h hU rfl rfl
  obtain ⟨_, s, hsort, hs⟩ | ⟨stop, s, hsort, hs⟩ := hmany.cases
  · rw [hsort]
    exact hs
  · rw [hsort]
    exact hs

/-- **No comparison can harm the sort**: whatever it answers, and however that depends on what was
asked before, the sort ends, no index is out of range, no subtraction goes below zero, and the ids
are a permutation of what they were, also if the comparison aborts the sort. -/
theorem timsort_perm (lt : Compare σ α) (t : Slice σ α) :
    ∃ t', t'.items.Perm t.items ∧
    (timsort lt t = .ok () t' ∨ timsort lt t = .error .aborted t') := by
  have hfollows : Follows lt False (fun _ => True) fun _ => 0 := False.elim
  obtain ⟨_, t', hsort, hre, -⟩ | ⟨_, t', hsort, ⟨rfl, -⟩, hperm⟩ :=
    (ensures_timsort hfollows (t := t) False.elim).cases
  · exact ⟨t', hre.perm, .inl hsort⟩
  · exact ⟨t', hperm, .inr hsort⟩

/-! ## Short lists -/

variable {t : Slice σ α}

/-- A sort that has not begun. -/
abbrev unbegun (t : Slice σ α) : MergeState σ α := ⟨t.cmp, t.items, minGallopStart, [], []⟩

theorem onSlice_unbegun (hn : n = t.items.length) (x : SliceM σ α β) :
    onSlice 0 n x (unbegun t) = match x t with
      | .ok a t' => .ok a (unbegun t')
      | .error stop t' => .error stop (unbegun t') := by
  rw [onSlice, get_bind_apply, slice, if_pos (by simp [hn]), pure_bind_apply, zoom, hn]
  simp only [drop_zero, take_length, take_zero, nil_append, Nat.zero_add, drop_length, append_nil]
  cases x t <;> rfl

/-- A run of all there is leaves nothing to merge. -/
theorem mergeForceCollapse_single (hn : 0 < n) : (do
      foundNewRun lt n n
      modify fun s : MergeState σ α => { s with pending := s.pending ++ [(⟨0, n, 0⟩ : Run)] }
      sortRuns lt n n n (0 + n)
      let s ← get
      mergeForceCollapse lt (s.pending.length + 1)) (unbegun t) =
    .ok () { unbegun t with pending := [⟨0, n, 0⟩] } := by
  obtain ⟨k, rfl⟩ := Nat.exists_eq_add_one_of_ne_zero hn.ne'
  have hfound : foundNewRun lt (k + 1) (k + 1) (unbegun t) = .ok () (unbegun t) := rfl
  rw [bind_of_ok hfound, bind_of_ok (modify_apply _), sortRuns, if_neg (by omega)]
  rfl

/-- **The short sort is timsort**: a short list is a single run. -/
theorem timsort_eq_sortShort (hshort : t.items.length < maxMinrun) :
    timsort lt t = sortShort lt t := by
  rw [timsort, sortShort, get_bind_apply]
  split_ifs with hfew
  · rfl
  rw [sortMany, mergeComputeMinrun, if_neg (Nat.not_le.mpr hshort), Nat.add_zero, sortRuns,
    if_pos (by omega), sub_eq (Nat.zero_le _), pure_bind, Nat.sub_zero]
  have hrun' := onSlice_unbegun rfl (countRun lt) (t := t)
  have hcounted := @ensures_countRun σ α lt False (fun _ => True) (fun _ => 0) t
    False.elim False.elim
    (ne_nil_of_length_pos (by omega))
  obtain ⟨m, t', hrun, hpos, hm, hre, -⟩ | ⟨stop, t', hrun, -⟩ := hcounted.cases <;>
    rw [hrun] at hrun'
  · have hlen := hre.length_eq
    simp only [bind_assoc]
    rw [bind_of_ok hrun', bind_of_ok hrun, extendRun]
    split_ifs with hlt
    · have hsort' := onSlice_unbegun hlen.symm (binarySort lt m)
      simp only [bind_assoc, Nat.min_self, pure_bind]
      cases hsort : binarySort lt m t' with
      | error stop t'' =>
        rw [hsort] at hsort'
        rw [bind_of_error hsort']
      | ok _ t'' =>
        rw [hsort] at hsort'
        rw [bind_of_ok hsort', mergeForceCollapse_single (by omega)]
    · obtain rfl : m = t.items.length := by omega
      rw [pure_bind, mergeForceCollapse_single (by omega)]
      rfl
  · rw [bind_of_error (bind_of_error hrun'), bind_of_error hrun]

end Monty.Sorting
