import Mathlib.Algebra.Order.BigOperators.Group.Finset
import Mathlib.Data.Finset.Max
import Mathlib.Data.Set.Finite.Lattice
import Mathlib.Order.Preorder.Finite
import Mathlib.Tactic.Ring

/-!
# Counting edges in a directed multigraph

A directed multigraph is presented by its successor lists, `succ : V → List V`: an edge from `v` to
`w` is an occurrence of `w` in `succ v`. Self loops are allowed, and so are parallel edges, which
count as many times as they occur.

* `edgesInto succ S x` counts the edges that leave a vertex of the finite set `S` and arrive at
  `x`. A reference count is a number of this kind: `edgesInto_insert`, `edgesInto_erase` and
  `edgesInto_sdiff` say what moving a vertex in or out of the set does to it.
* `Reach succ v x` says that a path leads from `v` to `x`, and `ReachFrom succ A x` that one leads
  there from the set `A`. `ReachFrom.mem_of_closed` is the induction rule: a set that contains
  `A` and is closed under successors contains everything reachable from `A`.

`exists_source` finds, in a finite nonempty set of vertices, one that can reach every vertex of the
set it is reachable from. It lies on a cycle as soon as it has a predecessor in the set
(`exists_source_cycle`).
-/

namespace Multigraph

open Finset

universe u

variable {V : Type u}

/-! ## Edges into a vertex -/

variable {v x : V} {succ' : V → List V}

section

variable [DecidableEq V] (succ : V → List V)

/-- The number of edges from the vertices of `S` to `x`, with multiplicity. -/
def edgesInto (S : Finset V) (x : V) : ℕ := ∑ v ∈ S, (succ v).count x

@[simp] theorem edgesInto_empty (x : V) : edgesInto succ ∅ x = 0 := rfl

variable {S : Finset V}

theorem edgesInto_insert (hv : v ∉ S) (x : V) :
    edgesInto succ (insert v S) x = (succ v).count x + edgesInto succ S x :=
  sum_insert hv

variable {T : Finset V}

theorem edgesInto_mono (h : S ⊆ T) (x : V) : edgesInto succ S x ≤ edgesInto succ T x :=
  sum_le_sum_of_subset h

theorem edgesInto_erase (hv : v ∈ S) (x : V) :
    (succ v).count x + edgesInto succ (S.erase v) x = edgesInto succ S x :=
  add_sum_erase S (fun w => (succ w).count x) hv

theorem edgesInto_sdiff (h : T ⊆ S) (x : V) :
    edgesInto succ (S \ T) x + edgesInto succ T x = edgesInto succ S x :=
  sum_sdiff h

theorem edgesInto_union (h : Disjoint S T) (x : V) :
    edgesInto succ (S ∪ T) x = edgesInto succ S x + edgesInto succ T x :=
  sum_union h

theorem edgesInto_pos_iff : 0 < edgesInto succ S x ↔ ∃ v ∈ S, x ∈ succ v := by
  rw [edgesInto, sum_pos_iff]
  simp only [List.count_pos_iff]

theorem edgesInto_eq_zero_iff : edgesInto succ S x = 0 ↔ ∀ v ∈ S, x ∉ succ v := by
  rw [edgesInto, sum_eq_zero_iff]
  simp only [List.count_eq_zero]

variable {succ : V → List V}

theorem edgesInto_congr
    (h : ∀ v ∈ S, succ v = succ' v) (x : V) : edgesInto succ S x = edgesInto succ' S x :=
  sum_congr rfl fun v hv => by rw [h v hv]

/-- Adding edges out of one vertex of the set. -/
theorem edgesInto_update {p : V} {k : ℕ} (hp : p ∈ S)
    (hne : ∀ v ∈ S, v ≠ p → succ' v = succ v) (hk : (succ' p).count x = k + (succ p).count x) :
    edgesInto succ' S x = k + edgesInto succ S x := by
  have hrest : edgesInto succ' (S.erase p) x = edgesInto succ (S.erase p) x :=
    edgesInto_congr (fun v hv => hne v (mem_of_mem_erase hv) (ne_of_mem_erase hv)) x
  rw [← edgesInto_erase succ' hp, ← edgesInto_erase succ hp, hrest, hk, Nat.add_assoc]

end

/-! ## Reachability -/

variable (succ : V → List V)

/-- A path of edges leads from one vertex to the other. -/
abbrev Reach : V → V → Prop := Relation.ReflTransGen fun v w => w ∈ succ v

/-- A path of edges leads from some vertex of `A`. -/
def ReachFrom (A : V → Prop) (x : V) : Prop := ∃ a, A a ∧ Reach succ a x

variable {succ}

variable {A : V → Prop}

theorem ReachFrom.base {a : V} (h : A a) : ReachFrom succ A a := ⟨a, h, .refl⟩

variable {w : V}

theorem ReachFrom.step (h : ReachFrom succ A v) (hw : w ∈ succ v) : ReachFrom succ A w := by
  obtain ⟨a, ha, hav⟩ := h
  exact ⟨a, ha, hav.tail hw⟩

theorem ReachFrom.trans (h : ReachFrom succ A v) (hw : Reach succ v w) : ReachFrom succ A w := by
  obtain ⟨a, ha, hav⟩ := h
  exact ⟨a, ha, hav.trans hw⟩

theorem ReachFrom.mono {B : V → Prop} (hAB : ∀ a, A a → B a) (h : ReachFrom succ A x) :
    ReachFrom succ B x := by
  obtain ⟨a, ha, hax⟩ := h
  exact ⟨a, hAB a ha, hax⟩

variable {S : V → Prop}

/-- A set closed under successors contains whatever is reachable from a member of it. -/
theorem Reach.mem_of_closed (hS : ∀ v, S v → ∀ w ∈ succ v, S w)
    (hv : S v) (h : Reach succ v x) : S x := by
  induction h with
  | refl => exact hv
  | tail _ hw ih => exact hS _ ih _ hw

/-- **The induction rule for reachability from a set.** -/
theorem ReachFrom.mem_of_closed (hA : ∀ a, A a → S a)
    (hS : ∀ v, S v → ∀ w ∈ succ v, S w) (h : ReachFrom succ A x) : S x := by
  obtain ⟨a, ha, hax⟩ := h
  exact Reach.mem_of_closed hS (hA a ha) hax

variable {succ : V → List V}

/-- Reachability within a set closed under successors reads only the successor lists of that
set. -/
theorem Reach.congr (hS : ∀ v, S v → ∀ w ∈ succ v, S w)
    (hsucc : ∀ v, S v → ∀ w ∈ succ v, w ∈ succ' v) (hv : S v) (h : Reach succ v x) :
    Reach succ' v x := by
  induction h with
  | refl => exact .refl
  | tail hvu hw ih => exact ih.tail (hsucc _ (Reach.mem_of_closed hS hv hvu) _ hw)

/-! ## Sources of a finite set -/

/-- A finite nonempty set of vertices has a member that reaches back to every member it can be
reached from. -/
theorem exists_source (succ : V → List V) {B : Set V} (hfin : B.Finite) (hne : B.Nonempty) :
    ∃ m ∈ B, ∀ b ∈ B, Reach succ b m → Reach succ m b := by
  -- order the vertices by the set of their ancestors and take a minimal one
  obtain ⟨m, hm⟩ := hfin.exists_minimalFor (fun v => {u | Reach succ u v}) B hne
  refine ⟨m, hm.1, fun b hb hbm => ?_⟩
  have hsub : {u | Reach succ u b} ⊆ {u | Reach succ u m} := fun u hu =>
    Relation.ReflTransGen.trans hu hbm
  exact hm.2 hb hsub (show m ∈ {u | Reach succ u m} from .refl)

/-- `v` lies on a cycle: an edge leaves it from whose head `v` is reachable. -/
def OnCycle (succ : V → List V) (v : V) : Prop := ∃ w ∈ succ v, Reach succ w v

theorem OnCycle.of_edge (h : w ∈ succ v) (hw : Reach succ w v) : OnCycle succ w := by
  rcases hw.cases_head with rfl | ⟨u, hu, huv⟩
  · exact ⟨w, h, .refl⟩
  · exact ⟨u, hu, huv.tail h⟩

/-- If moreover every member has a predecessor in the set, the source and everything in the set
that reaches it lie on cycles. -/
theorem exists_source_cycle (succ : V → List V) {B : Set V} (hfin : B.Finite) (hne : B.Nonempty)
    (hpred : ∀ b ∈ B, ∃ p ∈ B, b ∈ succ p) : ∃ m ∈ B, ∀ b ∈ B, Reach succ b m → OnCycle succ b := by
  obtain ⟨m, hmB, hm⟩ := exists_source succ hfin hne
  refine ⟨m, hmB, fun b hb hbm => ?_⟩
  obtain ⟨p, hp, hbp⟩ := hpred b hb
  have hpm : Reach succ p m := (Relation.ReflTransGen.single hbp).trans hbm
  have hbp' : Reach succ b p := hbm.trans (hm p hp hpm)
  exact .of_edge hbp hbp'

/-! ## Changing the graph under a reachability invariant -/

/-- If every old anchor can still be reached and no edge is lost, nothing becomes unreachable. -/
theorem ReachFrom.transfer {A' : V → Prop} (hanchor : ∀ a, A a → ReachFrom succ' A' a)
    (hsucc : ∀ v, ∀ w ∈ succ v, w ∈ succ' v) (h : ReachFrom succ A x) : ReachFrom succ' A' x :=
  h.mem_of_closed hanchor fun _ hv w hw => hv.step (hsucc _ w hw)

/-- **Losing edges safely.**  A graph in which every vertex is reachable from the anchors `A` is cut
down to a finite set `L` of vertices with some of the edges. Suppose that

* every remaining vertex is a new anchor or has a predecessor left;
* whoever lost an incoming edge or its place among the anchors is a new anchor, unless it is one of
  the vertices that never lie on cycles.

Then every remaining vertex is reachable from the new anchors. -/
theorem reachFrom_of_cut (succ : V → List V) {A' : V → Prop} (onCycles : V → Prop) {L : Set V}
    (hfin : L.Finite) (hold : ∀ x ∈ L, ReachFrom succ A x) (hsource : ∀ v, ∀ w ∈ succ' v, v ∈ L)
    (hpred : ∀ x ∈ L, A' x ∨ ∃ v ∈ L, x ∈ succ' v) (hanchor : ∀ x ∈ L, A x → onCycles x → A' x)
    (hlost : ∀ v, ∀ x ∈ succ v, x ∈ L → x ∈ succ' v ∨ (onCycles x → A' x))
    (hcycle : ∀ x ∈ L, OnCycle succ' x → onCycles x) (hx : x ∈ L) : ReachFrom succ' A' x := by
  by_contra hnot
  -- among the vertices cut off, one from which the others upstream of it can be reached
  set B : Set V := {b | b ∈ L ∧ ¬ ReachFrom succ' A' b} with hB
  have hBfin : B.Finite := hfin.subset fun b hb => hb.1
  have hBpred : ∀ b ∈ B, ∃ p ∈ B, b ∈ succ' p := by
    rintro b ⟨hbL, hb⟩
    obtain hA | ⟨v, hv, hvb⟩ := hpred b hbL
    · exact absurd (.base hA) hb
    · exact ⟨v, ⟨hv, fun hreach => hb (hreach.step hvb)⟩, hvb⟩
  obtain ⟨m, hmB, hm⟩ := exists_source_cycle succ' hBfin ⟨x, hx, hnot⟩ hBpred
  have hno : ∀ b ∈ B, Reach succ' b m → ¬ A' b ∧ onCycles b := fun b hb hbm =>
    ⟨fun hA => hb.2 (.base hA), hcycle b hb.1 (hm b hb hbm)⟩
  -- follow the old path to it backwards: no edge of it was lost, so all of it is cut off
  have hback : ∀ y, Reach succ y m → y ∈ B ∧ Reach succ' y m := by
    intro y hym
    induction hym using Relation.ReflTransGen.head_induction_on with
    | refl => exact ⟨hmB, .refl⟩
    | @head y z hyz _ ih =>
      obtain ⟨hzB, hzm⟩ := ih
      obtain ⟨hA, hc⟩ := hno z hzB hzm
      have hkept : z ∈ succ' y := (hlost y z hyz hzB.1).resolve_right fun himp => hA (himp hc)
      exact ⟨⟨hsource y z hkept, fun hy => hzB.2 (hy.step hkept)⟩, hzm.head hkept⟩
  obtain ⟨a, ha, ham⟩ := hold m hmB.1
  obtain ⟨haB, ham'⟩ := hback a ham
  obtain ⟨hA, hc⟩ := hno a haB ham'
  exact hA (hanchor a haB.1 ha hc)

end Multigraph
