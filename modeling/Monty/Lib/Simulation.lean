import Mathlib.Init

/-!
# Runs and forward simulation

A program is a step function that takes a state and an operation and either fails or gives an output
and a new state. A specification is a relation between a state, an operation, an output and a new
state, so it may leave choices open.

* `exists_trace` is forward simulation: if every single step from related states succeeds and is
  matched by the specification, then so is every run.
* `exists_foldlM` is the same for an invariant in place of a specification.
* `transcript` runs a program whose steps always answer; `transcript_lockstep` compares two of them,
  under a condition on the steps that are made.
-/

namespace Simulation

variable {S A Op Out Err : Type}

/-- Runs operations in order and collects their outputs. The first failure ends the run. -/
def run (step : S → Op → Except Err (Out × S)) : S → List Op → Except Err (List Out × S)
  | s, [] => .ok ([], s)
  | s, op :: ops =>
    match step s op with
    | .error err => .error err
    | .ok (out, s') =>
      match run step s' ops with
      | .error err => .error err
      | .ok (outs, s'') => .ok (out :: outs, s'')

/-- A sequence of operations, their outputs and the states before and after, as the specification
allows them. -/
inductive Trace (spec : A → Op → Out → A → Prop) : A → List Op → List Out → A → Prop
  | nil (a : A) : Trace spec a [] [] a
  | cons {a a' a'' : A} {op : Op} {ops : List Op} {out : Out} {outs : List Out} :
    spec a op out a' → Trace spec a' ops outs a'' → Trace spec a (op :: ops) (out :: outs) a''

variable {s : S} {R : S → A → Prop}

/-- **Forward simulation.**  Steps from related states succeed and are matched, so runs are. -/
theorem exists_trace {step : S → Op → Except Err (Out × S)} {spec : A → Op → Out → A → Prop}
    (hstep : ∀ s a op, R s a → ∃ out s' a', step s op = .ok (out, s') ∧ spec a op out a' ∧ R s' a')
    (ops : List Op) {a : A} (hR : R s a) :
    ∃ outs s' a', run step s ops = .ok (outs, s') ∧ Trace spec a ops outs a' ∧ R s' a' := by
  induction ops generalizing s a with
  | nil => exact ⟨[], s, a, rfl, .nil a, hR⟩
  | cons op ops ih =>
    obtain ⟨out, s', a', hs, ha, hR'⟩ := hstep s a op hR
    obtain ⟨outs, s'', a'', hrun, htrace, hR''⟩ := ih hR'
    exact ⟨out :: outs, s'', a'', by simp only [run, hs, hrun], .cons ha htrace, hR''⟩

/-- **An invariant of the steps is an invariant of the runs**, and steps that succeed wherever it
holds make runs that succeed. -/
theorem exists_foldlM {step : S → Op → Except Err S} {I : S → Prop}
    (hstep : ∀ s op, I s → ∃ s', step s op = .ok s' ∧ I s') (ops : List Op) (hI : I s) :
    ∃ s', ops.foldlM step s = .ok s' ∧ I s' := by
  induction ops generalizing s with
  | nil => exact ⟨s, rfl, hI⟩
  | cons op ops ih =>
    obtain ⟨s', hs, hI'⟩ := hstep s op hI
    obtain ⟨s'', hrun, hI''⟩ := ih hI'
    exact ⟨s'', by simp only [List.foldlM_cons, hs, bind, Except.bind, hrun], hI''⟩

/-! ## Two programs in lockstep -/

/-- Runs operations in order and collects their answers. -/
def transcript (step : S → Op → Out × S) : S → List Op → List Out × S
  | s, [] => ([], s)
  | s, op :: ops =>
    let (out, s') := step s op
    let (outs, s'') := transcript step s' ops
    (out :: outs, s'')

/-- Every step of the run meets a condition in the state it is made from. -/
def Throughout (step : S → Op → Out × S) (P : S → Op → Prop) : S → List Op → Prop
  | _, [] => True
  | s, op :: ops => P s op ∧ Throughout step P (step s op).2 ops

variable {step : S → Op → Out × S} {P : S → Op → Prop} {ops : List Op}

theorem Throughout.take (n : Nat)
    (h : Throughout step P s ops) : Throughout step P s (ops.take n) := by
  induction ops generalizing s n with
  | nil => simpa using h
  | cons op ops ih =>
    cases n with
    | zero => trivial
    | succ n => exact ⟨h.1, ih n h.2⟩

theorem Throughout.and_forall {Q : Op → Prop} (h : Throughout step P s ops)
    (hQ : ∀ op ∈ ops, Q op) : Throughout step (fun s op => P s op ∧ Q op) s ops := by
  induction ops generalizing s with
  | nil => trivial
  | cons op ops ih =>
    exact ⟨⟨h.1, hQ op List.mem_cons_self⟩, ih h.2 fun op' hop' => hQ op'
      (List.mem_cons_of_mem _ hop')⟩

/-- **Lockstep.**  Steps from related states that meet the condition give the same answers, in the
terms of the second program, and related states; so do runs. -/
theorem transcript_lockstep {Out' : Type} {step' : A → Op → Out' × A} {f : Out → Out'}
    (hstep : ∀ s a op, R s a → P s op →
      f (step s op).1 = (step' a op).1 ∧ R (step s op).2 (step' a op).2)
    (ops : List Op) {a : A} (hR : R s a) (hP : Throughout step P s ops) :
    (transcript step s ops).1.map f = (transcript step' a ops).1 ∧
      R (transcript step s ops).2 (transcript step' a ops).2 := by
  induction ops generalizing s a with
  | nil => exact ⟨rfl, hR⟩
  | cons op ops ih =>
    obtain ⟨hout, hR'⟩ := hstep s a op hR hP.1
    obtain ⟨houts, hR''⟩ := ih hR' hP.2
    refine ⟨?_, hR''⟩
    simp only [transcript, List.map_cons, hout, houts]

end Simulation
