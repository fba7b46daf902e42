import Mathlib.Tactic.Ring
import Monty.Proto.Frame

/-!
# The budget of a decode

A frame is decoded under a budget of bytes. A `BudgetVec` charges the whole of a new buffer before
it asks for one, and there are no refunds. `Vec` itself would grow when it is full without asking
anybody, so the model lets `extend` do that and records every buffer in a log, with the charges.

What an operation does to the account is said once (`Spends`): its growth is prepaid, and what it
charges is gone from the budget. Any run of operations on any number of vectors then spends
(`run_spends`), and pushes on an empty vector cost no more than a constant for each (`Amortised`).
-/

namespace Monty.Proto

open Fallible MachineInt List

/-- The largest `usize` of 64 bits. -/
def usizeMax : Nat := PointerWidth.bits64.usizeMax

/-- What a decode may take at most. -/
def defaultMaxDecodeBytes : Nat := 4 * maxFrameLen

/-- The text of the error. -/
structure DecodeError where
  message : String
  deriving DecidableEq, Repr

/-- The error for arithmetic overflow and exhaustion alike. -/
def exhausted : DecodeError := ⟨"frame exceeds decode memory budget"⟩

/-- A product that must fit. -/
def checkedMul (a b : Nat) : Except DecodeError Nat :=
  if a * b ≤ usizeMax then .ok (a * b) else .error exhausted

/-- A sum that must fit. -/
def checkedAdd (a b : Nat) : Except DecodeError Nat :=
  if a + b ≤ usizeMax then .ok (a + b) else .error exhausted

/-- What happens to memory: a charge to the budget, a buffer of so many bytes. -/
inductive Event
  | charged (bytes : Nat)
  | grown (bytes : Nat)

/-- The thread's budget, `none` outside a frame, and what happened so far, the latest first. -/
structure Account where
  remaining : Option Nat
  log : List Event

/-- A vector and the size of its buffer. -/
structure BudgetVec (α : Type) where
  elems : List α
  capacity : Nat
  fits : elems.length ≤ capacity

/-- One vector and the account it is charged to. -/
structure Local (α : Type) extends Account where
  vec : BudgetVec α

variable {α : Type}

section

variable (size : Nat)

/-- `Vec::new`: elements without a size always have room. -/
def BudgetVec.new : BudgetVec α := ⟨[], if size = 0 then usizeMax else 0, Nat.zero_le _⟩

/-- Takes bytes from the budget. -/
def charge (bytes : Nat) : EStateM DecodeError (Local α) Unit := do
  match (← get).remaining with
  | none => throw ⟨"decode allocation outside a frame; use decode_frame or FrameReader"⟩
  | some current =>
    if bytes ≤ current then
      modify fun s => { s with remaining := some (current - bytes), log := .charged bytes :: s.log }
    else throw exhausted

/-- `Vec::try_reserve_exact`, which gets just what it asks for. -/
def reserveExact (additional : Nat) (s : Local α) : Local α :=
  let v := s.vec
  if v.capacity - v.elems.length < additional then
    { s with
      vec := ⟨v.elems, v.elems.length + additional, Nat.le_add_right _ _⟩
      log := .grown (size * (v.elems.length + additional)) :: s.log }
  else s

/-- The smallest buffer that a growing `Vec` allocates. -/
def minNonZeroCap : Nat := if size = 1 then 8 else if size ≤ 1024 then 4 else 1

/-- `Vec::extend_from_slice` and, with one element, `Vec::push`: they grow when there is no room. -/
def extend (xs : List α) (s : Local α) : Local α :=
  let v := s.vec
  if h : v.elems.length + xs.length ≤ v.capacity then
    { s with vec := ⟨v.elems ++ xs, v.capacity, by rwa [length_append]⟩ }
  else
    let capacity := max (max (v.capacity * 2) (minNonZeroCap size)) (v.elems.length + xs.length)
    { s with
      vec := ⟨v.elems ++ xs, capacity, by rw [length_append]; exact le_max_right _ _⟩
      log := .grown (size * capacity) :: s.log }

/-- Pays for a buffer and what comes with each element. -/
def tryReserveCapacityWithOverhead (capacity overhead : Nat) : EStateM DecodeError
    (Local α) Unit := do
  if (← get).vec.capacity < capacity then
    let cost ← lift (checkedAdd size overhead)
    charge (← lift (checkedMul capacity cost))
    modify fun s => reserveExact size (capacity - s.vec.elems.length) s

/-- Pays for a buffer. -/
def tryReserveCapacity (capacity : Nat) : EStateM DecodeError (Local α) Unit :=
  tryReserveCapacityWithOverhead size capacity 0

/-- Room for one more; a full buffer is doubled. -/
def tryReserveSlot : EStateM DecodeError (Local α) Unit := do
  let v := (← get).vec
  if v.elems.length = v.capacity then
    tryReserveCapacity size (max (← lift (checkedMul v.capacity 2)) 4)

/-- Appends an element, paying if need be. -/
def tryPush (value : α) : EStateM DecodeError (Local α) Unit := do
  tryReserveSlot size
  modify (extend size [value])

/-- Appends an element where there is room. -/
def tryPushReserved (value : α) : EStateM DecodeError (Local α) Unit := do
  let v := (← get).vec
  if v.elems.length < v.capacity then modify (extend size [value])
  else throw ⟨"decode buffer has no reserved capacity"⟩

/-- The source hands out its bytes in chunks. -/
def tryReplace (source : List (List α)) : EStateM DecodeError (Local α) Unit := do
  tryReserveCapacity size source.flatten.length
  modify fun s => { s with vec := ⟨[], s.vec.capacity, Nat.zero_le _⟩ }
  modify fun s => source.foldl (fun s chunk => extend size chunk s) s

/-- Keeps the first `len` elements. -/
def truncate (len : Nat) : EStateM DecodeError (Local α) Unit :=
  modify fun s => { s with vec := ⟨s.vec.elems.take len, s.vec.capacity, by
    rw [length_take]; exact le_trans (min_le_right _ _) s.vec.fits⟩ }

/-- Keeps no element. -/
def clear : EStateM DecodeError (Local α) Unit := truncate 0

end

/-- An operation on a vector of elements of one type. -/
inductive Op (α : Type)
  | tryPush (value : α)
  | tryPushReserved (value : α)
  | tryReserveSlot
  | tryReserveCapacity (capacity : Nat)
  | tryReserveCapacityWithOverhead (capacity overhead : Nat)
  | tryReplace (source : List (List α))
  | clear
  | truncate (len : Nat)

/-- Carries the operation out. -/
def Op.perform {α : Type} (size : Nat) : Op α → EStateM DecodeError (Local α) Unit
  | .tryPush value => Proto.tryPush size value
  | .tryPushReserved value => Proto.tryPushReserved size value
  | .tryReserveSlot => Proto.tryReserveSlot size
  | .tryReserveCapacity capacity => Proto.tryReserveCapacity size capacity
  | .tryReserveCapacityWithOverhead capacity overhead =>
    Proto.tryReserveCapacityWithOverhead size capacity overhead
  | .tryReplace source => Proto.tryReplace size source
  | .clear => Proto.clear
  | .truncate len => Proto.truncate len

variable {ι : Type} {T : ι → Type}

section

variable [DecidableEq ι]

/-- All the vectors of a thread, each with its own type of elements. -/
structure Decoder (T : ι → Type) extends Account where
  vecs : ∀ i, BudgetVec (T i)

/-- One vector with the account. -/
def Decoder.part (s : Decoder T) (i : ι) : Local (T i) := ⟨s.toAccount, s.vecs i⟩

/-- Puts the vector back. -/
def Decoder.put (i : ι) (l : Local (T i)) (s : Decoder T) : Decoder T :=
  ⟨l.toAccount, Function.update s.vecs i l.vec⟩

/-- An operation on one of the vectors. -/
def perform (size : ι → Nat) (i : ι) (op : Op (T i)) : EStateM DecodeError (Decoder T) Unit :=
  zoom (Decoder.part · i) (Decoder.put i) (op.perform (size i))

/-- One operation after the other, whether they succeed or fail. -/
def run (size : ι → Nat) (ops : List ((i : ι) × Op (T i))) (s : Decoder T) : Decoder T :=
  ops.foldl (fun s op => after (perform size op.1 op.2) s) s

/-- The budget around the frame comes back at the end. -/
def withDecodeBudget (bytes : Nat) (f : Decoder T → Decoder T) (s : Decoder T) : Decoder T :=
  { f { s with remaining := some (min bytes defaultMaxDecodeBytes) } with remaining := s.remaining }

end

/-! ## What an operation spends -/

/-- The sum of the charges. -/
def charged : List Event → Nat
  | [] => 0
  | .charged bytes :: log => bytes + charged log
  | .grown _ :: log => charged log

/-- The sum of the buffers. -/
def grown : List Event → Nat
  | [] => 0
  | .charged _ :: log => grown log
  | .grown bytes :: log => bytes + grown log

/-- Right before each buffer came a charge that covers it. -/
inductive Prepaid : List Event → Prop
  | nil : Prepaid []
  | cons {bytes cost log} : bytes ≤ cost → Prepaid log →
    Prepaid (.grown bytes :: .charged cost :: log)

theorem charged_append (l m : List Event) : charged (l ++ m) = charged l + charged m := by
  induction l with
  | nil => exact (zero_add _).symm
  | cons e l ih => cases e <;> simp only [cons_append, charged, ih, add_assoc]

theorem Prepaid.append {l m : List Event} (hl : Prepaid l) (hm : Prepaid m) : Prepaid (l ++ m) := by
  induction hl with
  | nil => exact hm
  | cons h _ ih => exact .cons h ih

theorem Prepaid.grown_le {l : List Event} (hl : Prepaid l) : grown l ≤ charged l := by
  induction hl with
  | nil => exact le_refl 0
  | cons h _ ih => exact add_le_add h ih

/-- Between the two accounts these events happened, the charges among them paid out of the
budget. -/
structure Spends (a b : Account) (events : List Event) : Prop where
  log : b.log = events ++ a.log
  prepaid : Prepaid events
  remaining : a.remaining = b.remaining.map (· + charged events)

theorem Spends.refl (a : Account) : Spends a a [] := ⟨rfl, .nil, by cases a.remaining <;> rfl⟩

theorem Spends.trans {a b c : Account} {e f : List Event} (h : Spends a b e) (h' : Spends b c f) :
    Spends a c (f ++ e) where
  log := by rw [h'.log, h.log, append_assoc]
  prepaid := h'.prepaid.append h.prepaid
  remaining := by
    rw [h.remaining, h'.remaining, charged_append, Option.map_map]
    exact congrArg (Option.map · _) (funext fun n => add_assoc n _ _)

variable {size : Nat} {s : Local α}

theorem extend_of_le {xs : List α} (h : s.vec.elems.length + xs.length ≤ s.vec.capacity) :
    extend size xs s = { s with vec :=
      ⟨s.vec.elems ++ xs, s.vec.capacity, by rwa [length_append]⟩ } :=
  dif_pos h

/-- How a vector comes to have room: it had, or the budget paid for a buffer of just this
capacity. -/
inductive Grows (size overhead capacity : Nat) (s : Local α) : Local α → Prop
  | room : capacity ≤ s.vec.capacity → Grows size overhead capacity s s
  | paid {r : Nat} (h : s.vec.elems.length ≤ capacity) : s.vec.capacity < capacity →
    s.remaining = some r → capacity * (size + overhead) ≤ r → Grows size overhead capacity s
      ⟨⟨some (r - capacity * (size + overhead)),
        .grown (size * capacity) :: .charged (capacity * (size + overhead)) :: s.log⟩,
          s.vec.elems, capacity, h⟩

section

variable {overhead capacity : Nat} {s' : Local α}

section

variable (h : Grows size overhead capacity s s')

include h

theorem Grows.spends : ∃ events, Spends s.toAccount s'.toAccount events := by
  cases h with
  | room _ => exact ⟨[], .refl _⟩
  | paid _ _ hr hcost =>
    refine ⟨[.grown _, .charged _], rfl, .cons ?_ .nil,
      hr.trans (congrArg some (Nat.sub_add_cancel hcost).symm)⟩
    rw [mul_comm]
    exact Nat.mul_le_mul_left _ (Nat.le_add_right _ _)

theorem Grows.elems_eq : s'.vec.elems = s.vec.elems := by
  cases h <;> rfl

theorem Grows.capacity_le : capacity ≤ s'.vec.capacity := by
  cases h with
  | room h => exact h
  | paid => exact le_refl _

end

end

/-- A refusal changes nothing, and there was a reason for it. -/
def Refused (s : Local α) (cost : Nat) (_ : DecodeError) (s' : Local α) : Prop :=
  s' = s ∧ ∀ r ≤ usizeMax, s.remaining = some r → r < cost

theorem charge_pays (bytes : Nat) : Ensures (charge bytes) s
      (fun _ s' => ∃ r, s.remaining = some r ∧ bytes ≤ r ∧
        s' = { s with remaining := some (r - bytes), log := .charged bytes :: s.log })
      (Refused s bytes) := by
  refine .get_bind ?_
  cases hr : s.remaining with
  | none => exact .throw ⟨rfl, fun r _ h => nomatch hr.symm.trans h⟩
  | some r =>
    by_cases hle : bytes ≤ r
    · simp only [if_pos hle]
      exact ⟨r, rfl, hle, rfl⟩
    · simp only [if_neg hle]
      refine .throw ⟨rfl, fun r' _ h => ?_⟩
      cases hr.symm.trans h
      omega

theorem tryReserveCapacityWithOverhead_grows (capacity overhead : Nat) :
    Ensures (tryReserveCapacityWithOverhead size capacity overhead) s
      (fun _ s' => Grows size overhead capacity s s')
        (Refused s (capacity * (size + overhead))) := by
  refine .get_bind ?_
  by_cases hcap : s.vec.capacity < capacity
  case neg =>
    rw [if_neg hcap]
    exact .pure (.room (Nat.le_of_not_lt hcap))
  rw [if_pos hcap, checkedAdd]
  have hle : size + overhead ≤ capacity * (size + overhead) := Nat.le_mul_of_pos_left _ (by omega)
  by_cases hmul : capacity * (size + overhead) ≤ usizeMax
  case neg =>
    have herr : Refused s (capacity * (size + overhead)) exhausted s :=
      ⟨rfl, fun r hr _ => by omega⟩
    split
    · refine .bind_of_eq lift_ok ?_
      rw [checkedMul, if_neg hmul]
      exact herr
    · exact herr
  rw [if_pos (le_trans hle hmul)]
  refine .bind_of_eq lift_ok ?_
  rw [checkedMul, if_pos hmul]
  refine .bind_of_eq lift_ok ((charge_pays _).bind ?_)
  rintro - _ ⟨r, hr, hcost, rfl⟩
  have hlen := s.vec.fits
  rw [Ensures, modify_apply, reserveExact]
  simp only
  rw [if_pos (by omega)]
  simp only [Nat.add_sub_cancel' (Nat.le_trans hlen (Nat.le_of_lt hcap))]
  exact .paid _ hcap hr hcost

/-- The capacity a vector has before the next element goes in. -/
def slotCapacity (v : BudgetVec α) : Nat :=
  if v.elems.length = v.capacity then max (v.capacity * 2) 4 else v.capacity

theorem lt_slotCapacity (v : BudgetVec α) : v.elems.length < slotCapacity v := by
  have := v.fits
  rw [slotCapacity]
  split <;> omega

/-- There is no room, and the budget does not pay for any. -/
structure Stuck (size : Nat) (s s' : Local α) : Prop where
  full : s.vec.elems.length = s.vec.capacity
  same : s' = s
  lt_cost : 0 < size → ∀ r ≤ usizeMax, s.remaining = some r → r < slotCapacity s.vec * size

theorem tryReserveSlot_grows :
    Ensures (tryReserveSlot size) s (fun _ s' => Grows size 0 (slotCapacity s.vec) s s')
      fun _ s' => Stuck size s s' := by
  refine .get_bind ?_
  by_cases hfull : s.vec.elems.length = s.vec.capacity
  case neg =>
    rw [slotCapacity, if_neg hfull, if_neg hfull]
    exact .pure (.room (le_refl _))
  have hslot : slotCapacity s.vec = max (s.vec.capacity * 2) 4 := if_pos hfull
  rw [if_pos hfull, checkedMul, hslot]
  by_cases hmul : s.vec.capacity * 2 ≤ usizeMax
  · rw [if_pos hmul]
    refine .bind_of_eq lift_ok ?_
    exact (tryReserveCapacityWithOverhead_grows _ 0).mono (fun _ _ h => h)
      fun _ _ h => ⟨hfull, h.1, fun _ => hslot ▸ h.2⟩
  · rw [if_neg hmul]
    refine ⟨hfull, rfl, fun hsize r hr _ => ?_⟩
    have := Nat.le_mul_of_pos_right (slotCapacity s.vec) hsize
    omega

/-- An element went in after the vector had got room for it. -/
structure Pushed (size : Nat) (value : α) (s s' : Local α) : Prop where
  elems_eq : s'.vec.elems = s.vec.elems ++ [value]
  grows : ∃ t, Grows size 0 (slotCapacity s.vec) s t ∧ s'.toAccount = t.toAccount ∧
    s'.vec.capacity = t.vec.capacity

theorem tryPush_pushed (value : α) :
    Ensures (tryPush size value) s (fun _ s' => Pushed size value s s') fun _ s' => Stuck
      size s s' := by
  refine tryReserveSlot_grows.bind fun _ t ht => ?_
  have hroom : t.vec.elems.length + [value].length ≤ t.vec.capacity := by
    rw [ht.elems_eq]
    exact le_trans (lt_slotCapacity s.vec) ht.capacity_le
  rw [Ensures, modify_apply, extend_of_le hroom]
  exact ⟨by simp only [ht.elems_eq], t, ht, rfl, rfl⟩

theorem foldl_extend (source : List (List α))
    (h : s.vec.elems.length + source.flatten.length ≤ s.vec.capacity) :
    (source.foldl (fun s chunk => extend size chunk s) s).toAccount = s.toAccount := by
  induction source generalizing s with
  | nil => rfl
  | cons chunk source ih =>
    rw [flatten_cons, length_append] at h
    rw [foldl_cons, extend_of_le (by omega)]
    refine ih ?_
    simp only [length_append]
    omega

theorem Op.perform_spends (op : Op α) :
    Ensures (op.perform size) s (fun _ s' => ∃ events, Spends s.toAccount s'.toAccount events)
      fun _ s' => s' = s := by
  have hkeep : ∃ events, Spends s.toAccount s.toAccount events := ⟨[], .refl _⟩
  cases op with
  | tryPush value =>
    refine (tryPush_pushed value).mono (fun _ s' h => ?_) fun _ _ h => h.same
    obtain ⟨t, ht, hs', -⟩ := h.grows
    rw [hs']
    exact ht.spends
  | tryPushReserved value =>
    refine .get_bind ?_
    by_cases hroom : s.vec.elems.length < s.vec.capacity
    · rw [if_pos hroom, Ensures, modify_apply,
        extend_of_le (show _ + [value].length ≤ _ from hroom)]
      exact hkeep
    · rw [if_neg hroom]
      exact .throw rfl
  | tryReserveSlot => exact tryReserveSlot_grows.mono (fun _ _ h => h.spends) fun _ _ h => h.same
  | tryReserveCapacity capacity =>
    exact (tryReserveCapacityWithOverhead_grows capacity 0).mono (fun _ _ h => h.spends)
      fun _ _ h => h.1
  | tryReserveCapacityWithOverhead capacity overhead =>
    exact (tryReserveCapacityWithOverhead_grows capacity overhead).mono (fun _ _ h => h.spends)
      fun _ _ h => h.1
  | tryReplace source =>
    refine .bind ((tryReserveCapacityWithOverhead_grows source.flatten.length 0).mono
      (fun _ _ h => h)
      fun _ _ h => h.1) fun _ t ht => ?_
    have hroom := ht.capacity_le
    refine .modify_bind _ (.of_eq rfl ?_)
    rw [foldl_extend source (by simpa using hroom)]
    exact ht.spends
  | clear => exact hkeep
  | truncate len => exact hkeep

section

variable [DecidableEq ι]

theorem Decoder.put_part (i : ι) (s : Decoder T) : s.put i (s.part i) = s := by
  rw [put, part, Function.update_eq_self]

theorem Decoder.part_put (i : ι) (l : Local (T i)) (s : Decoder T) : (s.put i l).part i = l := by
  cases l
  simp only [put, part, Function.update_self]

theorem perform_spends (size : ι → Nat) (i : ι) (op : Op (T i)) (s : Decoder T) :
    Ensures (perform size i op) s (fun _ s' => ∃ events, Spends s.toAccount s'.toAccount events)
      fun _ s' => s' = s := by
  have h : Ensures (zoom (Decoder.part · i) (Decoder.put i) (op.perform (size i))) s _ _ :=
    op.perform_spends.zoom
  refine h.mono ?_ ?_
  · rintro - _ ⟨t, rfl, h⟩
    exact h
  · rintro - _ ⟨_, rfl, rfl⟩
    exact s.put_part i

theorem run_spends (size : ι → Nat) (ops : List ((i : ι) × Op (T i))) (s : Decoder T) :
    ∃ events, Spends s.toAccount (run size ops s).toAccount events := by
  induction ops generalizing s with
  | nil => exact ⟨[], .refl _⟩
  | cons op ops ih =>
    have hstep := ((perform_spends size op.1 op.2 s).mono (fun _ _ h => h)
      fun _ s' h => ⟨[], by rw [show s' = s from h]; exact .refl _⟩).after
    obtain ⟨e, he⟩ := hstep
    obtain ⟨f, hf⟩ := ih (after (perform size op.1 op.2) s)
    exact ⟨f ++ e, he.trans hf⟩

theorem run_part (size : ι → Nat) (i : ι) (ops : List (Op (T i))) (s : Decoder T) :
    (run size (ops.map (⟨i, ·⟩)) s).part i = ops.foldl
      (fun l op => Fallible.after (op.perform (size i)) l) (s.part i) := by
  induction ops generalizing s with
  | nil => rfl
  | cons op ops ih =>
    have hstep : (after (perform size i op) s).part i = after (op.perform (size i)) (s.part i) := by
      rw [Fallible.after, Fallible.after, perform, zoom]
      cases op.perform (size i) (s.part i) <;> exact Decoder.part_put i _ s
    rw [foldl_cons, ← hstep]
    exact ih _

end

/-! ## Pushes on an empty vector -/

section

variable {a : Account}

/-- What a vector has cost so far: nothing, or at most twice its buffer, which its elements fill by
half. -/
def Amortised (size : Nat) (a : Account) (s : Local α) : Prop := charged s.log = charged a.log ∨
    charged s.log ≤ charged a.log + 2 * (size * s.vec.capacity) ∧
    s.vec.capacity ≤ 2 * s.vec.elems.length + 2

theorem Amortised.pushed {value : α} {s' : Local α} (h : Amortised size a s)
    (hs' : Pushed size value s s') : Amortised size a s' := by
  obtain ⟨t, ht, hacc, hcap⟩ := hs'.grows
  have hlen : s'.vec.elems.length = s.vec.elems.length + 1 := by
    rw [hs'.elems_eq, length_append]
    rfl
  rw [Amortised, hacc, hcap, hlen]
  cases ht with
  | room _ => exact h.imp_right fun h => ⟨h.1, by omega⟩
  | paid _ hlt _ _ =>
    -- The vector was full, so the new buffer is at least twice the old one and at most twice its
    -- elements.
    have hfull : s.vec.elems.length = s.vec.capacity := by
      by_contra hne
      rw [slotCapacity, if_neg hne] at hlt
      exact lt_irrefl _ hlt
    have hslot : slotCapacity s.vec = max (s.vec.capacity * 2) 4 := if_pos hfull
    have hdouble : size * s.vec.capacity * 2 ≤ size * slotCapacity s.vec := by
      rw [hslot, mul_assoc]
      exact Nat.mul_le_mul_left size (Nat.le_max_left _ _)
    simp only [charged, add_zero, mul_comm (slotCapacity s.vec)]
    refine .inr ⟨?_, by omega⟩
    rcases h with h | h <;> omega

theorem Amortised.charged_le (h : Amortised size a s) {n : Nat} (hn : s.vec.elems.length ≤ n) :
    charged s.log ≤ charged a.log + (4 * size * n + 4 * size) := by
  rcases h with h | ⟨h, hcap⟩
  · omega
  · have hsize := Nat.mul_le_mul_left size (by omega : s.vec.capacity ≤ 2 * n + 2)
    calc charged s.log ≤ charged a.log + 2 * (size * s.vec.capacity) := h
      _ ≤ charged a.log + 2 * (size * (2 * n + 2)) := by omega
      _ = charged a.log + (4 * size * n + 4 * size) := by ring

theorem after_tryPush (size : Nat) (s : Local α) (value : α) :
    Pushed size value s (after (tryPush size value) s) ∨
    Stuck size s (after (tryPush size value) s) :=
  Ensures.after (P := fun s' => Pushed size value s s' ∨ Stuck size s s')
    ((tryPush_pushed value).mono (fun _ _ h => .inl h) fun _ _ h => .inr h)

theorem Amortised.pushes (h : Amortised size a s) (values : List α) :
    let s' := values.foldl (fun l value => after (tryPush size value) l) s
    Amortised size a s' ∧ s'.vec.elems.length ≤ s.vec.elems.length + values.length := by
  induction values generalizing s with
  | nil => exact ⟨h, le_refl _⟩
  | cons value values ih =>
    rw [foldl_cons, length_cons]
    rcases after_tryPush size s value with hpush | hstuck
    · have hlen := congrArg length hpush.elems_eq
      rw [length_append, length_singleton] at hlen
      exact ⟨(ih (h.pushed hpush)).1, by have := (ih (h.pushed hpush)).2; omega⟩
    · rw [hstuck.same]
      exact ⟨(ih h).1, by have := (ih h).2; omega⟩

/-- So much is left of a budget of `total` bytes since the first account. -/
def Funded (total : Nat) (a b : Account) : Prop :=
  ∃ r ≤ usizeMax, b.remaining = some r ∧ r + charged b.log = total + charged a.log

theorem Funded.spends {total : Nat} {b c : Account} {events : List Event} (h : Funded total a b)
    (hc : Spends b c events) : Funded total a c := by
  obtain ⟨r, hr, hb, hsum⟩ := h
  have hrem := hb.symm.trans hc.remaining
  cases hcr : c.remaining with
  | none =>
    rw [hcr] at hrem
    exact nomatch hrem
  | some r' =>
    rw [hcr, Option.map_some, Option.some.injEq] at hrem
    refine ⟨r', by omega, hcr, ?_⟩
    rw [hc.log, charged_append]
    omega

/-- Under a budget that is linear in their number no push fails. -/
theorem Amortised.pushes_elems (h : Amortised size a s) (hsize : 0 < size) {total : Nat}
    (hfund : Funded total a s.toAccount) (values : List α)
    (htotal : 4 * (size * (s.vec.elems.length + values.length)) + 4 * size ≤ total) :
    (values.foldl (fun l value => after (tryPush size value) l) s).vec.elems =
      s.vec.elems ++ values := by
  induction values generalizing s with
  | nil => exact (append_nil _).symm
  | cons value values ih =>
    rcases after_tryPush size s value with hpush | ⟨hfull, -, hcost⟩
    · have hlen := congrArg length hpush.elems_eq
      obtain ⟨t, ht, hacc, -⟩ := hpush.grows
      obtain ⟨events, hevents⟩ := ht.spends
      rw [foldl_cons, ih (h.pushed hpush) (hacc ▸ hfund.spends hevents),
        hpush.elems_eq, append_assoc]
      · rfl
      · rw [hlen, length_append, length_singleton, add_assoc, add_comm 1]
        exact htotal
    obtain ⟨r, hr, hrem, hsum⟩ := hfund
    have hlt := hcost hsize r hr hrem
    have hslot : slotCapacity s.vec * size ≤ 2 * (size * s.vec.elems.length) + 4 * size := by
      rw [slotCapacity, if_pos hfull, ← hfull]
      exact (Nat.mul_le_mul_right size (by omega : _ ≤ s.vec.elems.length * 2 + 4)).trans_eq
        (by ring)
    have hvalues : size * s.vec.elems.length + size ≤
        size * (s.vec.elems.length + (value :: values).length) :=
      Nat.mul_le_mul_left size (by rw [length_cons]; omega : s.vec.elems.length + 1 ≤ _)
    rw [Amortised, ← hfull] at h
    rcases h with h | h <;> omega

end

variable [DecidableEq ι]

theorem run_pushes (size : ι → Nat) (i : ι) (values : List (T i)) (s : Decoder T) :
    (run size (values.map (⟨i, .tryPush ·⟩)) s).part i =
      values.foldl (fun l value => after (tryPush (size i) value) l) (s.part i) := by
  have h := run_part size i (values.map .tryPush) s
  rwa [map_map, foldl_map] at h

/-- In a scope of so many bytes all buffers together take no more, and each of them is prepaid; an
operation that fails changes nothing; pushes on an empty vector cost a constant each, and under such
a budget they succeed. -/
theorem decode_budget_bounds_allocation (size : ι → Nat) :
    (∀ bytes (ops : List ((i : ι) × Op (T i))) s, ∃ events,
      (withDecodeBudget bytes (run size ops) s).log = events ++ s.log ∧ grown events ≤ bytes ∧
      Prepaid events) ∧
    (∀ i (op : Op (T i)) s err s', perform size i op s = .error err s' → s' = s) ∧
    (∀ i (values : List (T i)) s, (s.vecs i).elems = [] →
      charged (run size (values.map (⟨i, .tryPush ·⟩)) s).log ≤
        charged s.log + (4 * size i * values.length + 4 * size i)) ∧
    ∀ i (values : List (T i)) bytes s, (s.vecs i).elems = [] → 0 < size i →
      4 * size i * values.length + 4 * size i ≤ min bytes defaultMaxDecodeBytes →
      ((withDecodeBudget bytes (run size (values.map (⟨i, .tryPush ·⟩))) s).vecs i).elems =
        values := by
  refine ⟨fun bytes ops s => ?_, fun i op s err s' h => ?_, fun i values s h => ?_,
    fun i values bytes s h hsize hle => ?_⟩
  · obtain ⟨events, hevents⟩ :=
      run_spends size ops { s with remaining := some (min bytes defaultMaxDecodeBytes) }
    refine ⟨events, hevents.log, le_trans hevents.prepaid.grown_le ?_, hevents.prepaid⟩
    have hrem := hevents.remaining
    cases hr : (run size ops { s with remaining := some (min bytes defaultMaxDecodeBytes)
      }).remaining with
    | none =>
      rw [hr] at hrem
      exact nomatch hrem
    | some r =>
      rw [hr, Option.map_some, Option.some.injEq] at hrem
      omega
  · have hop := perform_spends size i op s
    rwa [Ensures, h] at hop
  · have hstart : Amortised (size i) s.toAccount (s.part i) := .inl rfl
    obtain ⟨hcost, hlen⟩ := hstart.pushes values
    rw [← run_pushes] at hcost hlen
    rw [show (s.part i).vec.elems = [] from h, length_nil, zero_add] at hlen
    exact hcost.charged_le hlen
  · let budget : Account := ⟨some (min bytes defaultMaxDecodeBytes), s.log⟩
    have hstart : Amortised (size i) budget ⟨budget, s.vecs i⟩ := .inl rfl
    have hfund : min bytes defaultMaxDecodeBytes ≤ usizeMax :=
      le_trans (min_le_right _ _) (by decide)
    rw [mul_assoc] at hle
    have helems := hstart.pushes_elems hsize ⟨_, hfund, rfl, rfl⟩ values
      (by simpa only [h, length_nil, zero_add])
    simp only [h, nil_append] at helems
    exact (congrArg (fun l : Local (T i) => l.vec.elems)
      (run_pushes size i values ⟨budget, s.vecs⟩)).trans helems

/-- Three numbers go into an empty vector. -/
theorem decode_budget_bounds_allocation_three :
    ((withDecodeBudget 200 (run (fun _ => 8) ([1, 2, 3].map (⟨(), .tryPush ·⟩)))
      (⟨⟨none, []⟩, fun _ => .new 8⟩ : Decoder fun _ : Unit => Nat)).vecs ()).elems = [1, 2, 3] :=
  (decode_budget_bounds_allocation fun _ => 8).2.2.2 () [1, 2, 3] 200 _ rfl (by decide) (by decide)

end Monty.Proto
