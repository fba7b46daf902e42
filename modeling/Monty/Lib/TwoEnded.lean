import Mathlib.Logic.Function.Basic
import Mathlib.Tactic.SplitIfs

/-!
# Links that are known at both ends

Things are waited for, each by one waiter at most. The thing knows its waiter, and the waiter knows
the things it waits for; a waiter that is done forgets them all at once, while they still name it.
Such links are made, and they are cut at the end of the thing when the thing settles: until the
waiter is told as well, one link is loose.
-/

/-- Who waits for what, as each of the two ends has it, and which waiters are done. -/
structure Links (W X : Type) where
  waiter : X → Option W
  knows : W → X → Prop
  done : W → Prop

namespace Links

variable {W X : Type}

/-- The two ends agree, except about the link that is loose. -/
structure Agree (L : Links W X) (loose : Option (W × X)) : Prop where
  waiter_of_knows : ∀ {w x}, L.knows w x → loose ≠ some (w, x) → L.waiter x = some w
  knows_of_waiter : ∀ {w x}, L.waiter x = some w → L.done w ∨ L.knows w x
  of_loose : ∀ {w x}, loose = some (w, x) → L.waiter x = none ∧ (L.done w ∨ L.knows w x)

variable {L L' : Links W X} {w : W} {x : X}

/-- A waiter takes a thing on that nobody waits for. -/
theorem Agree.link [DecidableEq X] (h : L.Agree none) (hx : L.waiter x = none)
    (hwaiter : ∀ y, L'.waiter y = if y = x then some w else L.waiter y)
    (hknows : ∀ v y, L'.knows v y ↔ L.knows v y ∨ v = w ∧ y = x)
    (hdone : ∀ v, L'.done v ↔ L.done v) : L'.Agree none := by
  refine ⟨fun {v y} hk _ => ?_, fun {v y} hy => ?_, nofun⟩
  · rw [hwaiter]
    rcases (hknows v y).mp hk with hk | ⟨rfl, rfl⟩
    · have hy := h.waiter_of_knows hk (by simp)
      rw [if_neg]
      · exact hy
      · rintro rfl
        exact nomatch hx.symm.trans hy
    · rw [if_pos rfl]
  rw [hwaiter] at hy
  rw [hknows, hdone]
  split_ifs at hy with hyx
  · exact .inr (.inr ⟨(Option.some.inj hy).symm, hyx⟩)
  · exact (h.knows_of_waiter hy).imp_right .inl

variable {loose : Option (W × X)}

variable (h : L.Agree loose) {waiting : Option W} (hx : L.waiter x = waiting)
  (hloose : ∀ v y, loose = some (v, y) → ¬ L'.knows v y)
  (hknows : ∀ v y, L'.knows v y → L.knows v y)
  (hkeeps : ∀ v y, L.knows v y → loose ≠ some (v, y) → L'.done v ∨ L'.knows v y)
  (hdone : ∀ v, L.done v → L'.done v)

include h

include hkeeps hdone in
theorem Agree.done_or_knows {v : W} {y : X} (hy : L.waiter y = some v) :
    L'.done v ∨ L'.knows v y := by
  rcases h.knows_of_waiter hy with hv | hk
  · exact .inl (hdone v hv)
  · refine hkeeps v y hk fun heq => ?_
    rw [(h.of_loose heq).1] at hy
    cases hy

include hloose hknows hkeeps hdone

include hx in
/-- A thing settles: its waiter, if there is one, is to be told. The thing may have been a waiter
itself, and be done: then it has not to be told any more. -/
theorem Agree.settle [DecidableEq X]
    (hwaiter : ∀ y, L'.waiter y = if y = x then none else L.waiter y) :
    L'.Agree (waiting.map (·, x)) := by
  refine ⟨fun {v y} hk hne => ?_, fun {v y} hy => ?_, fun {v y} heq => ?_⟩
  · have hy := h.waiter_of_knows (hknows v y hk) fun heq => hloose v y heq hk
    rw [hwaiter, if_neg]
    · exact hy
    · rintro rfl
      exact hne (by rw [← hx, hy]; rfl)
  · rw [hwaiter] at hy
    split_ifs at hy
    exact h.done_or_knows hkeeps hdone hy
  · obtain ⟨w, hw, heq⟩ := Option.map_eq_some_iff.mp heq
    obtain ⟨rfl, rfl⟩ := Prod.mk.inj heq
    exact ⟨by rw [hwaiter, if_pos rfl], h.done_or_knows hkeeps hdone (hx.trans hw)⟩

theorem Agree.finish (hwaiter : ∀ y, L'.waiter y = L.waiter y) : L'.Agree none := by
  refine ⟨fun {v y} hk _ => ?_, fun {v y} hy => ?_, nofun⟩
  · rw [hwaiter]
    exact h.waiter_of_knows (hknows v y hk) fun heq => hloose v y heq hk
  · exact h.done_or_knows hkeeps hdone ((hwaiter y).symm.trans hy)

end Links
