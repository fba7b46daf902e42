import Mathlib.Algebra.Group.Nat.Defs
import Mathlib.Data.List.Infix

/-!
# Byte streams that arrive in pieces

`leBytes w n` is a number in `w` little-endian bytes, and `leValue` reads it back.

A `Source` is what is left of a stream together with how it is going to hand it out: each event of
the plan is one call of `read` that is interrupted, hands out a few bytes only or fails. Once the
plan is used up a read gets all it asks for, so every finite behaviour of a source is some plan.
Reading no byte at all means that the stream is at its end.
-/

namespace ByteStream

abbrev Bytes := List UInt8

/-! ## Little-endian numbers -/

/-- The lowest `w` bytes of a number, lowest first. -/
def leBytes : Nat → Nat → Bytes
  | 0, _ => []
  | w + 1, n => UInt8.ofNat n :: leBytes w (n / 256)

/-- The number that bytes spell, lowest first. -/
def leValue : Bytes → Nat
  | [] => 0
  | b :: bs => b.toNat + 256 * leValue bs

@[simp]
theorem length_leBytes (w n : Nat) : (leBytes w n).length = w := by
  induction w generalizing n with
  | zero => rfl
  | succ w ih => simp [leBytes, ih]

theorem leValue_leBytes (w n : Nat) : leValue (leBytes w n) = n % 256 ^ w := by
  induction w generalizing n with
  | zero => simp [leBytes, leValue, Nat.mod_one]
  | succ w ih =>
    rw [leBytes, leValue, ih, Nat.pow_succ, Nat.mul_comm (256 ^ w), Nat.mod_mul]
    simp

/-! ## Sources -/

/-- How a source answers one read. -/
inductive Event (ε : Type)
  | interrupted
  /-- At most `n + 1` bytes are handed out. -/
  | short (n : Nat)
  | failed (err : ε)
  deriving DecidableEq, Repr

/-- The answer to one read. -/
inductive Answer (ε : Type)
  | ok (chunk : Bytes)
  | interrupted
  | failed (err : ε)
  deriving DecidableEq, Repr

/-- What is left of a stream, and how it arrives. -/
structure Source (ε : Type) where
  pending : Bytes
  plan : List (Event ε)
  deriving DecidableEq, Repr

namespace Source

variable {ε : Type}

/-- Hands out at most `n` bytes. -/
def deliver (s : Source ε) (n : Nat) (plan : List (Event ε)) : Answer ε × Source ε :=
  (.ok (s.pending.take n), ⟨s.pending.drop n, plan⟩)

/-- Reads into a buffer of `room` bytes. -/
def read (s : Source ε) (room : Nat) : Answer ε × Source ε :=
  match s.plan with
  | [] => s.deliver room []
  | .short n :: plan => s.deliver (min (n + 1) room) plan
  | .interrupted :: plan => (.interrupted, ⟨s.pending, plan⟩)
  | .failed err :: plan => (.failed err, ⟨s.pending, plan⟩)

def Reliable (s : Source ε) : Prop := ∀ err, Event.failed err ∉ s.plan

/-- What a read of a reliable source can do: it is interrupted, or it hands out a first part of
what is left, which is empty at the end of the stream only. -/
theorem read_cases {s : Source ε} (hs : s.Reliable) {room : Nat} (hroom : 0 < room) :
    (∃ plan, s.read room = (.interrupted, ⟨s.pending, plan⟩) ∧ plan.length < s.plan.length ∧
      plan <:+ s.plan) ∨
    ∃ n plan, s.read room = (.ok (s.pending.take n), ⟨s.pending.drop n, plan⟩) ∧ 0 < n ∧
      n ≤ room ∧ plan <:+ s.plan := by
  obtain ⟨pending, plan⟩ := s
  cases plan with
  | nil => exact .inr ⟨room, [], rfl, hroom, le_rfl, List.suffix_rfl⟩
  | cons event plan =>
    have hsuffix : plan <:+ event :: plan := List.suffix_cons event plan
    cases event with
    | interrupted => exact .inl ⟨plan, rfl, by simp, hsuffix⟩
    | short n => exact .inr ⟨_, plan, rfl, by omega, min_le_right _ _, hsuffix⟩
    | failed err => exact absurd (List.mem_cons_self ..) (hs err)

theorem Reliable.of_suffix {s s' : Source ε} (hs : s.Reliable) (h : s'.plan <:+ s.plan) :
    s'.Reliable := fun err hmem => hs err (h.subset hmem)

/-- A read never makes the plan longer, and one that hands nothing out makes it shorter. -/
theorem length_plan_read_le (s : Source ε) (room : Nat) :
    (s.read room).2.plan.length ≤ s.plan.length := by
  obtain ⟨pending, plan⟩ := s
  rcases plan with _ | ⟨_ | _ | _, plan⟩ <;> simp [read, deliver]

theorem length_plan_read_lt {s s' : Source ε} {room : Nat} (h : s.read room = (.interrupted, s')) :
    s'.plan.length < s.plan.length := by
  obtain ⟨pending, plan⟩ := s
  rcases plan with _ | ⟨_ | _ | _, plan⟩ <;> simp only [read, deliver, Prod.mk.injEq] at h
  · exact absurd h.1 (by simp)
  · rw [← h.2]
    exact Nat.lt_succ_self _
  · exact absurd h.1 (by simp)
  · exact absurd h.1 (by simp)

end Source

end ByteStream
