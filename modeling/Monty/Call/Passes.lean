import Monty.Call.Signature
import Monty.Lib.Fallible

/-!
# The passes of the binding algorithm

`Signature.bindGeneral` goes over the slots several times. Here each pass is described by what it
makes of slot `i`, for slots that are given as a function of their number.
-/

namespace Monty.Call

open Fallible List Function

variable {α : Type}

/-! ## Slots as functions -/

variable {n : Nat}

section

variable {β : Type}

/-- The values of a function, as many as given. -/
def layout (n : Nat) (f : Nat → β) : List β := (List.range n).map f

@[simp] theorem length_layout (n : Nat) (f : Nat → β) : (layout n f).length = n := by simp [layout]

theorem getElem?_layout (n : Nat) (f : Nat → β) (i : Nat) :
    (layout n f)[i]? = if i < n then some (f i) else none := by
  rw [layout, List.getElem?_map]
  split_ifs with h
  · rw [List.getElem?_range h, Option.map_some]
  · rw [List.getElem?_eq_none (by simpa using h), Option.map_none]

theorem layout_congr {f g : Nat → β} (h : ∀ i < n, f i = g i) : layout n f = layout n g := by
  refine ext_getElem? fun i => ?_
  rw [getElem?_layout, getElem?_layout]
  split_ifs with hi
  · rw [h i hi]
  · rfl

theorem set_layout (n : Nat) (f : Nat → β) (i : Nat) (b : β) :
    (layout n f).set i b = layout n (update f i b) := by
  refine ext_getElem? fun j => ?_
  rw [List.getElem?_set, getElem?_layout, getElem?_layout, length_layout]
  by_cases hij : i = j
  · subst hij
    simp
  · rw [if_neg hij, update_of_ne (Ne.symm hij)]

theorem layout_add (a b : Nat) (f : Nat → β) :
    layout (a + b) f = layout a f ++ layout b fun i => f (a + i) := by
  rw [layout, range_add, map_append, map_map]
  rfl

theorem index_layout {f : Nat → β} {i : Nat} (h : i < n) : index (layout n f) i = .ok (f i) := by
  rw [index, getElem?_layout, if_pos h]

end

/-! ## Positional values -/

theorem fillSlots_layout (n start k : Nat) (f : Nat → Slot α) (pos : List α) :
    fillSlots (layout n f) start k pos =
      (layout n (fun i => if start ≤ i ∧ i < start + k ∧ i - start < pos.length then
        pos[i - start]?.map .value else f i), pos.drop k) := by
  induction k generalizing start f pos with
  | zero =>
    rw [fillSlots, drop_zero]
    congr 1
    refine layout_congr fun i _ => ?_
    rw [if_neg (by omega)]
  | succ k ih =>
    cases pos with
    | nil =>
      rw [fillSlots, drop_nil]
      congr 1
      exact layout_congr fun i _ => by simp
    | cons v pos =>
      rw [fillSlots, set_layout, ih, drop_succ_cons]
      congr 1
      refine layout_congr fun i _ => ?_
      by_cases hi : i = start
      · subst hi
        rw [if_neg (by omega), update_self, if_pos ⟨Nat.le_refl _, by omega, by simp⟩]
        simp
      rw [update_of_ne hi]
      by_cases hlt : start ≤ i
      · obtain ⟨j, rfl⟩ : ∃ j, i = start + 1 + j := ⟨i - (start + 1), by omega⟩
        have h1 : start + 1 + j - start = j + 1 := by omega
        have h2 : start + 1 + j - (start + 1) = j := by omega
        rw [h1, h2, List.getElem?_cons_succ, length_cons]
        split_ifs <;> first | rfl | omega
      · rw [if_neg (by omega), if_neg (by omega)]

/-! ## Defaults -/

variable {defaults : List α}

theorem applyDefaults_layout {ns idx k : Nat} (f : Nat → Slot α)
    (hn : ns + k ≤ n) (hidx : idx + k ≤ defaults.length) :
    applyDefaults defaults ns idx (layout n f) k =
      .ok (layout n fun i => if ns ≤ i ∧ i < ns + k then
        f i <|> defaults[idx + (i - ns)]?.map .value else f i) := by
  induction k with
  | zero =>
    refine congrArg Except.ok (layout_congr fun i _ => ?_)
    rw [if_neg (by omega)]
  | succ k ih =>
    rw [applyDefaults, ih (by omega) (by omega), ok_bind, index_layout (by omega), ok_bind,
      if_neg (by omega)]
    have hget : ∃ v, defaults[idx + k]? = some v := by
      exact ⟨_, List.getElem?_eq_getElem (by omega)⟩
    obtain ⟨v, hv⟩ := hget
    have hi : index defaults (idx + k) = .ok v := by rw [index, hv]
    cases hf : f (ns + k) with
    | some b =>
      refine congrArg Except.ok (layout_congr fun i _ => ?_)
      by_cases h : i = ns + k
      · subst h
        rw [if_neg (by omega), if_pos (by omega), hf]
        rfl
      · congr 1
        simp only [eq_iff_iff]
        omega
    | none =>
      rw [hi, ok_bind, set_layout]
      refine congrArg Except.ok (layout_congr fun i _ => ?_)
      by_cases h : i = ns + k
      · subst h
        rw [update_self, if_pos (by omega), hf, Nat.add_sub_cancel_left, hv]
        rfl
      · rw [update_of_ne h]
        congr 1
        simp only [eq_iff_iff]
        omega

theorem applyKwDefaults_layout {idx : Nat} (map : List (Option Nat)) (ns : Nat) (f : Nat → Slot α)
    (hn : ns + map.length ≤ n) (hidx : ∀ d, some d ∈ map → idx + d < defaults.length) :
    applyKwDefaults defaults idx ns (layout n f) map = .ok (layout n fun i => if ns ≤ i then
        f i <|> (map[i - ns]?.join.bind fun d => defaults[idx + d]?).map .value else f i) := by
  induction map generalizing ns f with
  | nil =>
    exact congrArg Except.ok (layout_congr fun i _ => by simp)
  | cons d map ih =>
    rw [length_cons] at hn
    -- The slot at `ns` is done, and the others are looked at one place further.
    have key : ∀ g : Nat → Slot α, g ns =
        (f ns <|> (d.bind fun d => defaults[idx + d]?).map .value) → (∀ i, i ≠ ns → g i = f i) →
        applyKwDefaults defaults idx (ns + 1) (layout n g) map =
          .ok (layout n fun i => if ns ≤ i then
            f i <|> ((d :: map)[i - ns]?.join.bind fun d => defaults[idx + d]?).map .value
              else f i) := by
      intro g hg hne
      rw [ih (ns + 1) g (by omega) fun d hd => hidx d (mem_cons_of_mem _ hd)]
      refine congrArg Except.ok (layout_congr fun i _ => ?_)
      rcases Nat.lt_trichotomy i ns with h | rfl | h
      · rw [if_neg (by omega), if_neg (by omega), hne i (by omega)]
      · rw [if_neg (by omega), if_pos (Nat.le_refl _), hg, Nat.sub_self, List.getElem?_cons_zero,
          Option.join_some]
      · obtain ⟨j, rfl⟩ : ∃ j, i = ns + 1 + j := ⟨i - (ns + 1), by omega⟩
        rw [if_pos (by omega), if_pos (by omega), hne _ (by omega), Nat.add_sub_cancel_left,
          show ns + 1 + j - ns = j + 1 by omega, List.getElem?_cons_succ]
    cases d with
    | none =>
      exact key f (by simp) fun _ _ => rfl
    | some d =>
      have hd : idx + d < defaults.length := hidx d mem_cons_self
      rw [applyKwDefaults, index_layout (by omega), ok_bind]
      cases hf : f ns with
      | some b => exact key f (by rw [hf]; rfl) fun _ _ => rfl
      | none =>
        have hv : index defaults (idx + d) = .ok defaults[idx + d] := by
          rw [index, List.getElem?_eq_getElem hd]
        rw [hv, ok_bind, set_layout]
        refine key _ ?_ fun i hi => update_of_ne hi ..
        rw [update_self, hf, Option.bind_some, List.getElem?_eq_getElem hd]
        rfl

/-! ## Parameters that are missing -/

/-- The names of the required parameters that are not bound. -/
def unbound (f : Nat → Slot α) (required : Nat → Bool) : Nat → Nat → List String → List String
  | _, _, [] => []
  | ns, i, name :: names =>
    if required i ∧ f ns = none then name :: unbound f required (ns + 1) (i + 1) names
    else unbound f required (ns + 1) (i + 1) names

variable {f : Nat → Slot α} {required : Nat → Bool}

theorem missing_layout (names : List String) (ns i : Nat) (hn : ns + names.length ≤ n) :
    missing (layout n f) required ns i names = .ok (unbound f required ns i names) := by
  induction names generalizing ns i with
  | nil => rfl
  | cons name names ih =>
    rw [length_cons] at hn
    rw [missing, ih (ns + 1) (i + 1) (by omega), ok_bind, unbound]
    cases hr : required i with
    | false => rfl
    | true =>
      rw [if_pos rfl, index_layout (by omega), ok_bind]
      cases hf : f ns with
      | none => rfl
      | some b => rfl

theorem unbound_eq_nil (names : List String) (ns i : Nat) : unbound f required ns i names = [] ↔
      ∀ k < names.length, required (i + k) = true → (f (ns + k)).isSome := by
  induction names generalizing ns i with
  | nil => simp [unbound]
  | cons name names ih =>
    rw [unbound]
    split_ifs with h
    · refine ⟨nofun, fun hall => absurd (hall 0 (by simp) h.1) ?_⟩
      rw [Nat.add_zero, h.2]
      exact nofun
    rw [ih, length_cons]
    constructor
    · rintro hall (_ | k) hk hreq
      · rw [Option.isSome_iff_ne_none]
        exact fun hnone => h ⟨hreq, hnone⟩
      · rw [show ns + (k + 1) = ns + 1 + k by omega]
        exact hall k (by omega) (by rwa [show i + 1 + k = i + (k + 1) by omega])
    · intro hall k hk hreq
      rw [show ns + 1 + k = ns + (k + 1) by omega]
      exact hall (k + 1) (by omega) (by rwa [show i + (k + 1) = i + 1 + k by omega])

/-- Required parameters without a value are those after the values. -/
theorem unbound_eq_drop {names : List String} {required given i : Nat}
    (hf : ∀ j < required, f j = none ↔ given ≤ j) :
    unbound f (· < required) i i names = (names.take (required - i)).drop (given - i) := by
  induction names generalizing i with
  | nil => simp [unbound]
  | cons name names ih =>
    rw [unbound, ih]
    by_cases hi : i < required
    · rw [show required - i = required - (i + 1) + 1 by omega, take_succ_cons]
      split_ifs with hnone
      · have hle := (hf i hi).mp hnone.2
        rw [show given - i = 0 by omega, show given - (i + 1) = 0 by omega]
        rfl
      · have hlt : i < given := by
          refine Nat.not_le.mp fun hle => hnone ⟨decide_eq_true hi, (hf i hi).mpr hle⟩
        rw [show given - i = given - (i + 1) + 1 by omega, drop_succ_cons]
    · rw [if_neg (by simp [hi]), show required - (i + 1) = 0 by omega,
        show required - i = 0 by omega]
      simp

end Monty.Call
