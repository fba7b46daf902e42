import Mathlib.Order.Basic
import Monty.Lib.Fallible

/-!
# Searching with questions

Binary and galloping search where looking at an index is a question that may change a state, fail or
be answered at random. Whatever the answers are, the search stays in its bounds and ends. Under a
condition `C` on which the answers are the truth about a predicate on indices, it finds the boundary
of that predicate: that is how the postconditions below are stated.
-/

namespace Search

open Fallible

variable {ε σ : Type} {E : ε → Prop} {C : Prop}

/-- The question is answered, truthfully if `C`. -/
def Tells (C : Prop) (E : ε → Prop) (x : EStateM ε σ Bool) (p : Prop) : Prop :=
  Returns x (fun b => C → (b = true ↔ p)) E

theorem Tells.not {x : EStateM ε σ Bool} {p : Prop} (h : Tells C E x p) :
    Tells C E (do return !(← x)) ¬ p :=
  Returns.bind h fun b hb => .pure fun hC => by simp [← hb hC]

/-- Where the answers turn from yes to no, between `lo` and `hi`. -/
def bisect (before : Nat → EStateM ε σ Bool) (lo hi : Nat) : EStateM ε σ Nat :=
  if lo < hi then do
    let m := lo + (hi - lo) / 2
    if ← before m then bisect before (m + 1) hi else bisect before lo m
  else pure hi
termination_by hi - lo

/-- Doubles the step until the answer is no, or the step is too long: the last step with a yes and
the first without. -/
def gallopOut (keepGoing : Nat → EStateM ε σ Bool) (maxOfs lastOfs ofs : Nat) :
    EStateM ε σ (Nat × Nat) :=
  if ofs < maxOfs then do
    if ← keepGoing ofs then gallopOut keepGoing maxOfs ofs (2 * ofs + 1) else pure (lastOfs, ofs)
  else pure (lastOfs, ofs)
termination_by maxOfs - ofs

section

variable {before : Nat → EStateM ε σ Bool} {P : Nat → Prop} {n : Nat}

/-- **Binary search finds the boundary.** -/
theorem returns_bisect (htest : ∀ i < n, Tells C E (before i) (P i))
    (hmono : C → ∀ i j, i ≤ j → j < n → P j → P i) {lo hi : Nat} (hle : lo ≤ hi) (hn : hi ≤ n)
    (hlo : C → ∀ i < lo, P i) (hhi : C → ∀ i, hi ≤ i → i < n → ¬ P i) :
    Returns (bisect before lo hi) (fun k => lo ≤ k ∧ k ≤ hi ∧ (C → ∀ i < n, (P i ↔ i < k))) E := by
  fun_induction bisect before lo hi with
  | case1 lo hi hlt m ihyes ihno =>
    have hm : lo ≤ m ∧ m < hi := by omega
    refine .bind (htest m (by omega)) fun b hb => ?_
    cases b with
    | true =>
      refine (ihyes (by omega) hn (fun hC i hi' => ?_) hhi).mono fun k hk =>
        ⟨by omega, hk.2.1, hk.2.2⟩
      exact hmono hC i m (by omega) (by omega) ((hb hC).mp rfl)
    | false =>
      refine (ihno hm.1 (by omega) hlo fun hC i hi' hi'' hP => ?_).mono fun k hk =>
        ⟨hk.1, by omega, hk.2.2⟩
      simpa using (hb hC).mpr (hmono hC m i hi' hi'' hP)
  | case2 lo hi hge =>
    refine .pure ⟨hle, Nat.le_refl hi, fun hC i hi' => ⟨fun hP => ?_, fun hlt => ?_⟩⟩
    · by_contra hge'
      exact hhi hC i (by omega) hi' hP
    · exact hlo hC i (by omega)

end

variable {keepGoing : Nat → EStateM ε σ Bool} {G : Nat → Prop} {maxOfs : Nat}

/-- Galloping stops between a step with a yes and a longer one with a no. -/
theorem returns_gallopOut (htest : ∀ i, 0 < i → i < maxOfs → Tells C E (keepGoing i) (G i))
    {lastOfs ofs : Nat} (hlt : lastOfs < ofs) (hmax : lastOfs < maxOfs) (hG : C → G lastOfs) :
    Returns (gallopOut keepGoing maxOfs lastOfs ofs)
      (fun r => r.1 < r.2 ∧ r.1 < maxOfs ∧ (C → G r.1) ∧ (C → r.2 < maxOfs → ¬ G r.2)) E := by
  fun_induction gallopOut keepGoing maxOfs lastOfs ofs with
  | case1 lastOfs ofs hofs ih =>
    refine .bind (htest ofs (by omega) hofs) fun b hb => ?_
    cases b with
    | true => exact ih (by omega) hofs fun hC => (hb hC).mp rfl
    | false => exact .pure ⟨hlt, hmax, hG, fun hC _ hP => by simpa using (hb hC).mpr hP⟩
  | case2 lastOfs ofs hofs => exact .pure ⟨hlt, hmax, hG, fun _ h => absurd h hofs⟩

end Search
