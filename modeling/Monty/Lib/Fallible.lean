import Mathlib.Tactic.TypeStar

/-!
# Programs that change a state and may fail

`EStateM` programs: a failure keeps whatever state the program had reached, so a program that fails
half way through leaves its changes behind. Those that do not are the ones of `Holds`: from the
given state the program either fails without effect or ends as stated. What a program checks before
its first change is passed over by `Holds.lift_bind`; once nothing can fail any more, the rest is a
computation (`Holds.of_eq`).
-/

namespace Fallible

variable {ε σ τ α β : Type}

/-- A computation without state. -/
def lift (x : Except ε α) : EStateM ε σ α := fun s =>
  match x with
  | .ok a => .ok a s
  | .error err => .error err s

/-- A program on a part of the state. -/
def zoom (part : σ → τ) (update : τ → σ → σ) (x : EStateM ε τ α) : EStateM ε σ α := fun s =>
  match x (part s) with
  | .ok a t => .ok a (update t s)
  | .error err t => .error err (update t s)

/-- The state a program ends in, whether it succeeds or fails. -/
def after (x : EStateM ε σ α) (s : σ) : σ :=
  match x s with
  | .ok _ s' => s'
  | .error _ s' => s'

/-- What a program answers. -/
def answer (x : EStateM ε σ α) (s : σ) : Except ε α :=
  match x s with
  | .ok a _ => .ok a
  | .error err _ => .error err

variable {x : EStateM ε σ α} {f : α → EStateM ε σ β} {s s' : σ} {a : α} {err : ε}

@[simp] theorem pure_apply : (pure a : EStateM ε σ α) s = .ok a s := rfl

@[simp] theorem get_bind_apply {f : σ → EStateM ε σ β} : (get >>= f) s = f s s := rfl

@[simp] theorem modify_apply (g : σ → σ) : (modify g : EStateM ε σ PUnit) s = .ok ⟨⟩ (g s) := rfl

@[simp] theorem lift_ok : (lift (.ok a) : EStateM ε σ α) s = .ok a s := rfl

@[simp] theorem lift_error : (lift (.error err) : EStateM ε σ α) s = .error err s := rfl

@[simp] theorem pure_bind_apply : ((pure a : EStateM ε σ α) >>= f) s = f a s := rfl

theorem bind_of_ok (h : x s = .ok a s') : (x >>= f) s = f a s' := by
  change EStateM.bind x f s = f a s'
  rw [EStateM.bind, h]

theorem bind_of_error (h : x s = .error err s') : (x >>= f) s = .error err s' := by
  change EStateM.bind x f s = .error err s'
  rw [EStateM.bind, h]

theorem lift_bind_of_ok {x : Except ε α} (h : x = .ok a) : (lift x >>= f) s = f a s :=
  bind_of_ok (by rw [h, lift_ok])

theorem lift_bind_of_error {x : Except ε α} (h : x = .error err) :
    (lift x >>= f) s = .error err s :=
  bind_of_error (by rw [h, lift_error])

theorem lift_bind_error {x : Except ε α} (h : ∀ a, ∃ err, f a s = .error err s) :
    ∃ err, (lift x >>= f) s = .error err s := by
  cases hx : x with
  | ok a =>
    obtain ⟨err, herr⟩ := h a
    exact ⟨err, by rw [lift_bind_of_ok rfl, herr]⟩
  | error err => exact ⟨err, lift_bind_of_error rfl⟩

theorem bind_of_some {x : Option α} {f : α → Option β} (h : x = some a) : (x >>= f) = f a := by
  rw [h]
  rfl

@[simp] theorem ok_bind {f : α → Except ε β} : (Except.ok a >>= f) = f a := rfl

theorem bind_eq_ok {x : Except ε α} {f : α → Except ε β} {b : β} :
    (x >>= f) = .ok b ↔ ∃ a, x = .ok a ∧ f a = .ok b := by
  cases x with
  | ok a => exact ⟨fun h => ⟨a, rfl, h⟩, fun ⟨_, h, hf⟩ => by cases h; exact hf⟩
  | error err => exact ⟨nofun, fun ⟨_, h, _⟩ => (nomatch h)⟩

/-! ## Checks -/

/-- A computation that succeeds, with the given answer, just if a condition holds. -/
structure Decides (x : Except ε α) (p : Prop) (a : α) : Prop where
  eq_ok : p → x = .ok a
  eq_error : ¬ p → ∃ err, x = .error err

section

variable {x : Except ε α} {f : α → Except ε β} {p q : Prop} {b : β}

protected theorem Decides.ok (hp : p) : Decides (.ok a : Except ε α) p a :=
  ⟨fun _ => rfl, fun h => absurd hp h⟩

protected theorem Decides.error (hp : ¬ p) : Decides (.error err : Except ε α) p a :=
  ⟨fun h => absurd h hp, fun _ => ⟨err, rfl⟩⟩

theorem Decides.congr (hx : Decides x p a) (h : p ↔ q) : Decides x q a :=
  ⟨fun hq => hx.eq_ok (h.mpr hq), fun hq => hx.eq_error (mt h.mp hq)⟩

/-- Which error it is does not matter. -/
theorem Decides.iff (hx : Decides x p a) : Decides x q a ↔ (p ↔ q) := by
  refine ⟨fun hx' => ?_, hx.congr⟩
  by_cases hp : p <;> by_cases hq : q
  · exact iff_of_true hp hq
  · obtain ⟨err, herr⟩ := hx'.eq_error hq
    exact nomatch (hx.eq_ok hp).symm.trans herr
  · obtain ⟨err, herr⟩ := hx.eq_error hp
    exact nomatch (hx'.eq_ok hq).symm.trans herr
  · exact iff_of_false hp hq

theorem decides_mapError {δ : Type} {g : ε → δ} : Decides (x.mapError g) p a ↔ Decides x p a := by
  cases x with
  | ok b => exact ⟨fun h => ⟨fun hp => congrArg Except.ok (Except.ok.inj (h.eq_ok hp)),
      fun hp => (nomatch h.eq_error hp)⟩,
      fun h => ⟨fun hp => congrArg Except.ok (Except.ok.inj (h.eq_ok hp)),
        fun hp => (nomatch h.eq_error hp)⟩⟩
  | error err => exact ⟨fun h => .error fun hp => (nomatch h.eq_ok hp),
      fun h => .error fun hp => (nomatch h.eq_ok hp)⟩

theorem Decides.bind (hx : Decides x p a) (hf : p → Decides (f a) q b) :
    Decides (x >>= f) (p ∧ q) b := by
  by_cases hp : p
  · rw [hx.eq_ok hp]
    exact (hf hp).congr ⟨fun hq => ⟨hp, hq⟩, And.right⟩
  · obtain ⟨err, herr⟩ := hx.eq_error hp
    rw [herr]
    exact .error fun h => hp h.1

/-- A computation that succeeds just if a condition holds, and then with an answer as described. -/
structure Settles (x : Except ε α) (p : Prop) (Q : α → Prop) : Prop where
  eq_ok : p → ∃ a, x = .ok a ∧ Q a
  eq_error : ¬ p → ∃ err, x = .error err

theorem Settles.congr {Q : α → Prop} (hx : Settles x p Q) (h : p ↔ q) : Settles x q Q :=
  ⟨fun hq => hx.eq_ok (h.mpr hq), fun hq => hx.eq_error (mt h.mp hq)⟩

theorem Settles.of_eq_ok {Q : α → Prop} (hx : Settles x p Q) (h : x = .ok a) : p ∧ Q a := by
  by_cases hp : p
  · obtain ⟨b, hb, hQ⟩ := hx.eq_ok hp
    cases h.symm.trans hb
    exact ⟨hp, hQ⟩
  · obtain ⟨err, herr⟩ := hx.eq_error hp
    cases h.symm.trans herr

theorem Settles.bind {P : α → Prop} {Q : β → Prop} (hx : Settles x p P)
    (hf : p → ∀ a, P a → Settles (f a) q Q) : Settles (x >>= f) (p ∧ q) Q := by
  by_cases hp : p
  · obtain ⟨a, ha, hP⟩ := hx.eq_ok hp
    rw [ha]
    exact (hf hp a hP).congr ⟨fun hq => ⟨hp, hq⟩, And.right⟩
  · obtain ⟨err, herr⟩ := hx.eq_error hp
    rw [herr]
    exact ⟨fun h => absurd h.1 hp, fun _ => ⟨err, rfl⟩⟩

theorem Decides.settles (hx : Decides x p a) : Settles x p (· = a) :=
  ⟨fun hp => ⟨a, hx.eq_ok hp, rfl⟩, hx.eq_error⟩

theorem Decides.bind_settles {Q : β → Prop} (hx : Decides x p a) (hf : p → Settles (f a) q Q) :
    Settles (x >>= f) (p ∧ q) Q :=
  hx.settles.bind fun hp _ hb => hb ▸ hf hp

end

/-! ## Both ways out -/

/-- From this state the program ends with the one postcondition or fails with the other. -/
def Ensures (x : EStateM ε σ α) (s : σ) (Q : α → σ → Prop) (E : ε → σ → Prop) : Prop :=
  match x s with
  | .ok a s' => Q a s'
  | .error err s' => E err s'

variable {Q : β → σ → Prop} {R R' : α → σ → Prop} {update : τ → σ → σ} {part : σ → τ}

section

variable {E E' : ε → σ → Prop}

protected theorem Ensures.pure (h : R a s) : Ensures (pure a : EStateM ε σ α) s R E := h

protected theorem Ensures.throw (h : E err s) : Ensures (throw err : EStateM ε σ α) s R E := h

protected theorem Ensures.get_bind {f : σ → EStateM ε σ β} (h : Ensures (f s) s Q E) :
    Ensures (get >>= f) s Q E := h

protected theorem Ensures.modify_bind (g : σ → σ) {f : PUnit → EStateM ε σ β}
    (h : Ensures (f ⟨⟩) (g s) Q E) : Ensures (modify g >>= f) s Q E := h

protected theorem Ensures.of_eq (h : x s = .ok a s') (hR : R a s') : Ensures x s R E := by
  rw [Ensures, h]
  exact hR

theorem Ensures.cases (hx : Ensures x s R E) :
    (∃ a s', x s = .ok a s' ∧ R a s') ∨ ∃ err s', x s = .error err s' ∧ E err s' := by
  rw [Ensures] at hx
  cases hxs : x s with
  | ok a s' =>
    rw [hxs] at hx
    exact .inl ⟨a, s', rfl, hx⟩
  | error err s' =>
    rw [hxs] at hx
    exact .inr ⟨err, s', rfl, hx⟩

theorem Ensures.mono (hx : Ensures x s R E) (hR : ∀ a s', R a s' → R' a s')
    (hE : ∀ err s', E err s' → E' err s') : Ensures x s R' E' := by
  rw [Ensures]
  obtain ⟨a, s', hxs, ha⟩ | ⟨err, s', hxs, herr⟩ := hx.cases <;> rw [hxs]
  · exact hR a s' ha
  · exact hE err s' herr

theorem Ensures.bind (hx : Ensures x s R E) (hf : ∀ a s', R a s' → Ensures (f a) s' Q E) :
    Ensures (x >>= f) s Q E := by
  rw [Ensures]
  obtain ⟨a, s', hxs, ha⟩ | ⟨err, s', hxs, herr⟩ := hx.cases
  · rw [bind_of_ok hxs]
    exact hf a s' ha
  · rw [bind_of_error hxs]
    exact herr

theorem Ensures.after {P : σ → Prop} (hx : Ensures x s (fun _ => P) fun _ => P) :
    P (after x s) := by
  rw [Fallible.after]
  obtain ⟨_, _, hxs, hs⟩ | ⟨_, _, hxs, hs⟩ := hx.cases <;> rwa [hxs]

theorem Ensures.exists_error (hx : Ensures x s (fun _ _ => False) E) :
    ∃ err s', x s = .error err s' ∧ E err s' :=
  hx.cases.resolve_left fun ⟨_, _, _, h⟩ => h

/-- A first part that certainly succeeds. -/
protected theorem Ensures.bind_of_eq (h : x s = .ok a s') (hf : Ensures (f a) s' Q E) :
    Ensures (x >>= f) s Q E := by
  rwa [Ensures, bind_of_ok h]

/-- What a program does to a part of the state. -/
theorem Ensures.zoom {x : EStateM ε τ α} {R : α → τ → Prop}
    {E : ε → τ → Prop} (hx : Ensures x (part s) R E) :
    Ensures (zoom part update x) s (fun a s' => ∃ t, s' = update t s ∧ R a t)
      fun err s' => ∃ t, s' = update t s ∧ E err t := by
  rw [Ensures, Fallible.zoom]
  obtain ⟨_, t, hxs, ht⟩ | ⟨_, t, hxs, ht⟩ := hx.cases <;> rw [hxs] <;> exact ⟨t, rfl, ht⟩

end

/-! ## All or nothing -/

/-- From this state the program fails without effect, or ends with the postcondition. -/
def Holds (x : EStateM ε σ α) (s : σ) (Q : α → σ → Prop) : Prop :=
  match x s with
  | .ok a s' => Q a s'
  | .error _ s' => s' = s

protected theorem Holds.of_eq (h : x s = .ok a s') (hR : R a s') : Holds x s R := Ensures.of_eq h hR

protected theorem Holds.throw : Holds (throw err : EStateM ε σ α) s R := rfl

theorem holds_pure (hR : R a s) : Holds (pure a : EStateM ε σ α) s R := hR

protected theorem Holds.get_bind {f : σ → EStateM ε σ β} (h : Holds (f s) s Q) :
    Holds (get >>= f) s Q :=
  h

theorem holds_lift {x : Except ε α} (h : ∀ a, x = .ok a → R a s) :
    Holds (lift x : EStateM ε σ α) s R := by
  cases hx : x with
  | ok a => exact h a hx
  | error err => rfl

theorem Holds.mono (hx : Holds x s R) (h : ∀ a s', R a s' → R' a s') : Holds x s R' :=
  Ensures.mono hx h fun _ _ => id

/-- A check may fail; if it does not, the rest of the program goes on from the same state. -/
theorem Holds.lift_bind {x : Except ε α} (h : ∀ a, x = .ok a → Holds (f a) s Q) :
    Holds (lift x >>= f) s Q := by
  cases hx : x with
  | ok a => exact h a hx
  | error err => rfl

/-- A part that is all or nothing, followed by what cannot fail. -/
theorem Holds.bind (hx : Holds x s R) (h : ∀ a s', R a s' → ∃ b s'', f a s' = .ok b s'' ∧ Q b s'') :
    Holds (x >>= f) s Q := by
  refine Ensures.bind hx fun a s' ha => ?_
  obtain ⟨b, s'', hf, hQ⟩ := h a s' ha
  exact .of_eq hf hQ

/-- An invariant that the program ends with holds afterwards, also if the program failed. -/
theorem Holds.after {I : σ → Prop} (hx : Holds x s R) (h : ∀ a s', R a s' → I s') (hs : I s) :
    I (after x s) :=
  Ensures.after (.mono hx h fun _ _ heq => heq ▸ hs)

/-! ## Programs that cannot fail -/

/-- From this state the program ends with the postcondition. -/
def Succeeds (x : EStateM ε σ α) (s : σ) (Q : α → σ → Prop) : Prop :=
  ∃ a s', x s = .ok a s' ∧ Q a s'

section

protected theorem Succeeds.of_eq (h : x s = .ok a s') (hR : R a s') : Succeeds x s R :=
  ⟨a, s', h, hR⟩

protected theorem Succeeds.pure (h : R a s) : Succeeds (pure a : EStateM ε σ α) s R :=
  ⟨a, s, rfl, h⟩

theorem Succeeds.mono (hx : Succeeds x s R) (h : ∀ a s', R a s' → R' a s') : Succeeds x s R' := by
  obtain ⟨a, s', hrun, hR⟩ := hx
  exact ⟨a, s', hrun, h a s' hR⟩

theorem Succeeds.bind (hx : Succeeds x s R) (hf : ∀ a s', R a s' → Succeeds (f a) s' Q) :
    Succeeds (x >>= f) s Q := by
  obtain ⟨a, s', hrun, hR⟩ := hx
  obtain ⟨b, s'', hrun', hQ⟩ := hf a s' hR
  exact ⟨b, s'', (bind_of_ok hrun).trans hrun', hQ⟩

/-- A first part that is known. -/
protected theorem Succeeds.bind_of_eq (h : x s = .ok a s') (hf : Succeeds (f a) s' Q) :
    Succeeds (x >>= f) s Q := by
  obtain ⟨b, s'', hrun, hQ⟩ := hf
  exact ⟨b, s'', (bind_of_ok h).trans hrun, hQ⟩

protected theorem Succeeds.of_run_eq {y : EStateM ε σ α} (h : x s = y s') (hy : Succeeds y s' R) :
    Succeeds x s R := by
  obtain ⟨a, s'', hrun, hR⟩ := hy
  exact ⟨a, s'', h.trans hrun, hR⟩

protected theorem Succeeds.get_bind {f : σ → EStateM ε σ β} (h : Succeeds (f s) s Q) :
    Succeeds (get >>= f) s Q := h

variable {f : PUnit → EStateM ε σ β}

protected theorem Succeeds.set_bind {t : σ} (h : Succeeds (f ⟨⟩) t Q) :
    Succeeds (set t >>= f) s Q := h

protected theorem Succeeds.modify_bind (g : σ → σ)
    (h : Succeeds (f ⟨⟩) (g s) Q) : Succeeds (modify g >>= f) s Q := h

end

/-- Whatever the state, the program answers as described or fails as described. -/
def Returns (x : EStateM ε σ α) (Q : α → Prop) (E : ε → Prop) : Prop :=
  ∀ s, Ensures x s (fun a _ => Q a) fun err _ => E err

variable {E : ε → Prop}

section

variable {P : α → Prop} {Q : β → Prop}

protected theorem Returns.pure (h : P a) : Returns (pure a : EStateM ε σ α) P E := fun _ => h

theorem Returns.bind (hx : Returns x P E) (hf : ∀ a, P a → Returns (f a) Q E) :
    Returns (x >>= f) Q E :=
  fun s => (hx s).bind fun a s' ha => hf a ha s'

theorem Returns.mono {P' : α → Prop} (hx : Returns x P E) (h : ∀ a, P a → P' a) : Returns x P' E :=
  fun s => (hx s).mono (fun a _ => h a) fun _ _ he => he

end

/-! ## Programs that do less -/

/-- Wherever the one program succeeds, the other does the same. -/
def Implements (y x : EStateM ε σ α) : Prop := ∀ s a s', x s = .ok a s' → y s = .ok a s'

variable {y : EStateM ε σ α} {g : α → EStateM ε σ β}

protected theorem Implements.refl (x : EStateM ε σ α) : Implements x x := fun _ _ _ h => h

protected theorem Implements.throw : Implements y (throw err) := fun _ _ _ h => nomatch h

/-- An assertion that is only made by one of them. -/
protected theorem Implements.assert {p : Prop} [Decidable (false = true ∧ p)]
    [Decidable (true = true ∧ p)] :
    Implements (if false = true ∧ p then throw err else x)
      (if true = true ∧ p then throw err else x) := by
  rw [if_neg fun h => nomatch h.1]
  split
  · exact .throw
  · exact .refl x

theorem Implements.bind (hx : Implements y x) (hf : ∀ a, Implements (g a) (f a)) :
    Implements (y >>= g) (x >>= f) := by
  intro s b s' h
  cases hxs : x s with
  | ok a t =>
    rw [bind_of_ok hxs] at h
    rw [bind_of_ok (hx s a t hxs)]
    exact hf a t b s' h
  | error err t =>
    rw [bind_of_error hxs] at h
    cases h

theorem Implements.rest (hf : ∀ a, Implements (g a) (f a)) : Implements (x >>= g) (x >>= f) :=
  (Implements.refl x).bind hf

theorem Implements.zoom {x y : EStateM ε τ α}
    (h : Implements y x) : Implements (zoom part update y) (zoom part update x) := by
  intro s a s' hs
  rw [Fallible.zoom] at hs ⊢
  cases hxs : x (part s) with
  | ok a' t =>
    rw [hxs] at hs
    rw [h _ a' t hxs]
    exact hs
  | error err t =>
    rw [hxs] at hs
    cases hs

/-! ## Refusals -/

/-- The one computation does what the other does, or is refused with an error of a given kind. -/
def Spares (E : ε → Prop) (x y : Except ε α) : Prop := x = y ∨ ∃ err, E err ∧ x = .error err

section

variable {x y : Except ε α} {f g : α → Except ε β}

protected theorem Spares.rfl : Spares E x x := .inl rfl

protected theorem Spares.error (h : E err) : Spares E (.error err) y := .inr ⟨err, h, rfl⟩

theorem Spares.eq_ok (h : Spares E x y) (hx : x = .ok a) : y = .ok a := by
  rcases h with rfl | ⟨err, -, rfl⟩
  · exact hx
  · exact nomatch hx

theorem Spares.bind (hx : Spares E x y) (hf : ∀ a, Spares E (f a) (g a)) :
    Spares E (x >>= f) (y >>= g) := by
  rcases hx with rfl | ⟨err, herr, rfl⟩
  · cases x with
    | ok a => exact hf a
    | error err => exact .inl rfl
  · exact .error herr

/-- A check that only the one of them makes. -/
theorem Spares.bind_left {z : Except ε β} (hx : ∀ err, x = .error err → E err)
    (hf : ∀ a, x = .ok a → Spares E (f a) z) : Spares E (x >>= f) z := by
  cases hxs : x with
  | ok a => exact hf a hxs
  | error err => exact .error (hx err hxs)

end

/-! ## Two computations side by side -/

/-- If the one program succeeds, so does the other, with the same answer and in a related state. -/
def Mirrors (R : σ → σ → Prop) (x : EStateM ε σ α) (s : σ) (y : EStateM ε σ α) (t : σ) : Prop :=
  ∀ a s', x s = .ok a s' → ∃ t', y t = .ok a t' ∧ R s' t'

section

variable {R : σ → σ → Prop} {t : σ}

protected theorem Mirrors.pure (h : R s t) : Mirrors R (pure a : EStateM ε σ α) s (pure a) t := by
  rintro _ _ ⟨⟩
  exact ⟨t, rfl, h⟩

protected theorem Mirrors.throw : Mirrors R (throw err : EStateM ε σ α) s y t :=
  fun _ _ h => nomatch h

theorem mirrors_lift {x y : Except ε α} (hx : ∀ a, x = .ok a → y = .ok a) (h : R s t) :
    Mirrors R (lift x) s (lift y) t := by
  cases hxs : x with
  | ok a =>
    rw [hx a hxs]
    exact .pure h
  | error err => exact nofun

protected theorem Mirrors.get_bind {f g : σ → EStateM ε σ β} (h : Mirrors R (f s) s (g t) t) :
    Mirrors R (get >>= f) s (get >>= g) t := h

theorem Mirrors.bind (hx : Mirrors R x s y t)
    (hf : ∀ a s' t', R s' t' → Mirrors R (f a) s' (g a) t') :
    Mirrors R (x >>= f) s (y >>= g) t := by
  intro b s'' h
  cases hxs : x s with
  | ok a s' =>
    obtain ⟨t', hyt, hR⟩ := hx a s' hxs
    rw [bind_of_ok hxs] at h
    rw [bind_of_ok hyt]
    exact hf a s' t' hR b s'' h
  | error err s' =>
    rw [bind_of_error hxs] at h
    cases h

/-- Two checks that need not answer the same. -/
theorem Mirrors.lift_bind_of {γ : Type} {x : Except ε α} {y : Except ε γ} {g : γ → EStateM ε σ β}
    (h : ∀ a, x = .ok a → ∃ c, y = .ok c ∧ Mirrors R (f a) s (g c) t) :
    Mirrors R (lift x >>= f) s (lift y >>= g) t := by
  cases hxs : x with
  | ok a =>
    obtain ⟨c, hy, hf⟩ := h a hxs
    rw [hy]
    exact hf
  | error err => exact nofun

theorem Mirrors.lift_bind {x y : Except ε α} (hx : ∀ a, x = .ok a → y = .ok a)
    (hf : ∀ a, Mirrors R (f a) s (g a) t) : Mirrors R (lift x >>= f) s (lift y >>= g) t :=
  .lift_bind_of fun a ha => ⟨a, hx a ha, hf a⟩

end

/-! ## The same program in two states -/

/-- The one program does in the image of a state what the other does in the state. -/
def Maps (φ : σ → τ) (g : α → β) (x : EStateM ε σ α) (y : EStateM ε τ β) : Prop := ∀ s,
  y (φ s) = match x s with
    | .ok a s' => .ok (g a) (φ s')
    | .error err s' => .error err (φ s')

variable {γ δ : Type} {φ : σ → τ} {g : α → β} {h : γ → δ} {x' : EStateM ε σ α}
    {y y' : EStateM ε τ β}

protected theorem Maps.pure (a : α) : Maps φ g (pure a : EStateM ε σ α) (pure (g a)) := fun _ => rfl

protected theorem Maps.throw (err : ε) : Maps φ g (throw err : EStateM ε σ α) (throw err) :=
  fun _ => rfl

protected theorem Maps.get : Maps φ φ (get : EStateM ε σ σ) get := fun _ => rfl

protected theorem Maps.ite {p : Prop} [Decidable p] (hx : Maps φ g x y) (hx' : Maps φ g x' y') :
    Maps φ g (if p then x else x') (if p then y else y') := by
  split
  · exact hx
  · exact hx'

theorem Maps.bind {f : α → EStateM ε σ γ} {f' : β → EStateM ε τ δ} (hx : Maps φ g x y)
    (hf : ∀ a, Maps φ h (f a) (f' (g a))) : Maps φ h (x >>= f) (y >>= f') := by
  intro s
  have hs := hx s
  cases hxs : x s with
  | ok a s' =>
    rw [hxs] at hs
    rw [bind_of_ok hs, bind_of_ok hxs]
    exact hf a s'
  | error err s' =>
    rw [hxs] at hs
    rw [bind_of_error hs, bind_of_error hxs]

theorem Maps.after (hx : Maps φ g x y) (s : σ) : after y (φ s) = φ (after x s) := by
  rw [Fallible.after, hx, Fallible.after]
  cases x s <;> rfl

theorem Maps.answer {y : EStateM ε τ α} (hx : Maps φ id x y) (s : σ) :
    answer y (φ s) = answer x s := by
  rw [Fallible.answer, hx, Fallible.answer]
  cases x s <;> rfl

end Fallible
