import Monty.Call.Passes

/-!
# Python's calling convention

A positional parameter gets the value at its position; failing that the keyword of its name, unless
it is positional-only; failing that its default. A keyword-only parameter gets the keyword of its
name or its default. Values that are left go to `*args`, and keywords that name no parameter that
may be given by keyword go to `**kwargs`. A call is accepted if nothing is left over without these,
if no parameter is given twice, and if every parameter has a value.

`Signature.bind` accepts just these calls, with just these values, unless a keyword is spelled like
a positional-only parameter and there is `**kwargs`: such a keyword should be collected, and is
refused.
-/

namespace Monty.Call

open Fallible List Signature
open Option hiding any_eq_true

variable {α : Type}

/-! ## The convention -/

namespace ParsedSignature

variable (sig : ParsedSignature α)

def positional : List (ParsedParam α) := sig.posArgs ++ sig.args

/-- Whether a parameter of this name may be given by keyword. -/
def takesKeyword (name : String) : Bool :=
  (sig.args.map ParsedParam.name).contains name || (sig.kwargs.map ParsedParam.name).contains name

variable (pos : List α) (kw : List (String × α))

/-- The value of the `i`-th positional parameter. -/
def positionalValue (i : Nat) (p : ParsedParam α) : Option α :=
  pos[i]? <|> (if i < sig.posArgs.length then none else kw.lookup p.name) <|> p.default

def keywordValue (p : ParsedParam α) : Option α := kw.lookup p.name <|> p.default

/-- The calls that Python accepts. -/
structure Accepts : Prop where
  room : sig.varArgs.isSome ∨ pos.length ≤ sig.positional.length
  once : ∀ i p, sig.positional[i]? = some p → i < pos.length → sig.posArgs.length ≤ i →
    p.name ∉ kw.map Prod.fst
  known : sig.varKwargs.isSome ∨ ∀ name ∈ kw.map Prod.fst, sig.takesKeyword name = true
  bound : ∀ i p, sig.positional[i]? = some p → (sig.positionalValue pos kw i p).isSome
  kwonly : ∀ p ∈ sig.kwargs, (keywordValue kw p).isSome

/-- What the slots then hold. -/
def slots : List (Slot α) :=
  (sig.positional.mapIdx fun i p => (sig.positionalValue pos kw i p).map .value) ++
    (if sig.varArgs.isSome then [some (.tuple (pos.drop sig.positional.length))] else []) ++
    (sig.kwargs.map fun p => (keywordValue kw p).map .value) ++
    if sig.varKwargs.isSome then [some (.dict (kw.filter fun e => !sig.takesKeyword e.1))] else []

end ParsedSignature

/-! ## The signature that is made of the parameters -/

section

variable {β : Type} (l : List β)

theorem getD_ite_nil : (if l = [] then none else some l : Option (List β)).getD [] = l := by
  split_ifs with h
  · exact h.symm
  · rfl

theorem elim_ite_nil :
    (if l = [] then none else some l : Option (List β)).elim 0 length = l.length := by
  split_ifs with h
  · rw [h]
    rfl
  · rfl

end

namespace ParsedSignature

variable (sig : ParsedSignature α)

@[simp] theorem signature_posArgs :
    sig.signature.posArgs.getD [] = sig.posArgs.map (·.name) := getD_ite_nil _

@[simp] theorem signature_args : sig.signature.args.getD [] = sig.args.map (·.name) :=
  getD_ite_nil _

@[simp] theorem signature_kwargs : sig.signature.kwargs.getD [] = sig.kwargs.map (·.name) :=
  getD_ite_nil _

@[simp] theorem signature_posArgCount : sig.signature.posArgCount = sig.posArgs.length :=
  (elim_ite_nil _).trans (length_map ..)

@[simp] theorem signature_argCount : sig.signature.argCount = sig.args.length :=
  (elim_ite_nil _).trans (length_map ..)

@[simp] theorem signature_kwargCount : sig.signature.kwargCount = sig.kwargs.length :=
  (elim_ite_nil _).trans (length_map ..)

@[simp] theorem signature_kwargDefaultMap :
    sig.signature.kwargDefaultMap.getD [] = Call.kwargDefaultMap 0 sig.kwargs := by
  rw [signature, new]
  dsimp only
  split_ifs with h
  · rw [map_eq_nil_iff.mp h]
    rfl
  · rfl

@[simp] theorem signature_varArgs : sig.signature.varArgs = sig.varArgs := rfl

@[simp] theorem signature_varKwargs : sig.signature.varKwargs = sig.varKwargs := rfl

@[simp] theorem signature_posDefaultsCount :
    sig.signature.posDefaultsCount = (sig.posArgs.filterMap ParsedParam.default).length := by
  rw [length_filterMap_eq_countP, countP_eq_length_filter]
  rfl

@[simp] theorem signature_argDefaultsCount :
    sig.signature.argDefaultsCount = (sig.args.filterMap ParsedParam.default).length := by
  rw [length_filterMap_eq_countP, countP_eq_length_filter]
  rfl

@[simp] theorem length_positional : sig.positional.length = sig.posArgs.length + sig.args.length :=
  length_append

/-- The slot of the first keyword-only parameter. -/
def kwStart : Nat := sig.posArgs.length + sig.args.length + if sig.varArgs.isSome then 1 else 0

def totalSlots : Nat := sig.kwStart + sig.kwargs.length + if sig.varKwargs.isSome then 1 else 0

@[simp] theorem signature_kwStart : sig.signature.kwStart = sig.kwStart := by
  rw [Signature.kwStart, kwStart, signature_posArgCount, signature_argCount, signature_varArgs]

@[simp] theorem signature_totalSlots : sig.signature.totalSlots = sig.totalSlots := by
  rw [Signature.totalSlots, totalSlots, Signature.paramCount, kwStart, signature_posArgCount,
    signature_argCount, signature_kwargCount, signature_varArgs, signature_varKwargs]
  split_ifs <;> omega

/-- The parameter of a slot; the slots of `*args` and `**kwargs` have none. -/
def paramAt (i : Nat) : Option (ParsedParam α) :=
  if i < sig.posArgs.length + sig.args.length then sig.positional[i]?
  else if sig.kwStart ≤ i then sig.kwargs[i - sig.kwStart]? else none

/-- The name that binds a slot by keyword. -/
def keywordName (i : Nat) : Option String :=
  if i < sig.posArgs.length then none else (sig.paramAt i).map ParsedParam.name

/-! ## Positional values -/

def afterPositional (pos : List α) (i : Nat) : Slot α :=
  if i < sig.posArgs.length + sig.args.length then pos[i]?.map .value
  else if i < sig.kwStart then some (.tuple (pos.drop (sig.posArgs.length + sig.args.length)))
  else none

theorem bindPositional_eq {memory : Memory} (hmemory : ∀ n, memory.tupleFits n = true)
    (pos : List α) : sig.signature.bindPositional memory pos =
      .ok (layout sig.totalSlots (sig.afterPositional pos)) := by
  have hreplicate : ∀ n, replicate n (none : Slot α) = layout n fun _ => none := by
    intro n
    rw [layout, map_const', length_range]
  -- Both fills together put value `i` into slot `i`.
  have hfill : ∀ i, (if sig.posArgs.length ≤ i ∧ i < sig.posArgs.length + sig.args.length ∧
        i - sig.posArgs.length < (pos.drop sig.posArgs.length).length then
      (pos.drop sig.posArgs.length)[i - sig.posArgs.length]?.map Bound.value
    else if 0 ≤ i ∧ i < 0 + sig.posArgs.length ∧ i - 0 < pos.length then
      pos[i - 0]?.map Bound.value else none) =
      if i < sig.posArgs.length + sig.args.length then pos[i]?.map Bound.value else none := by
    intro i
    rw [length_drop, getElem?_drop]
    by_cases hlen : i < pos.length
    · by_cases hi : sig.posArgs.length ≤ i
      · rw [Nat.add_sub_cancel' hi]
        split_ifs <;> first | rfl | omega
      · split_ifs <;> first | rfl | omega
    · rw [if_neg (by omega), if_neg (by omega), getElem?_eq_none (Nat.not_lt.mp hlen)]
      simp
  unfold bindPositional
  simp only [signature_posArgCount, signature_argCount, signature_totalSlots, hreplicate,
    fillSlots_layout, drop_drop, hmemory, if_true, signature_varArgs, hfill]
  split_ifs with hvar
  · rw [set_layout]
    refine congrArg Except.ok (layout_congr fun i _ => ?_)
    by_cases h : i = sig.posArgs.length + sig.args.length
    · subst h
      rw [Function.update_self, afterPositional, if_neg (by omega), kwStart, if_pos hvar,
        if_pos (by omega)]
    · rw [Function.update_of_ne h, afterPositional, kwStart, if_pos hvar]
      split_ifs <;> first | rfl | omega
  · refine congrArg Except.ok (layout_congr fun i _ => ?_)
    rw [afterPositional, kwStart, if_neg hvar]
    split_ifs <;> first | rfl | omega

/-! ## Keywords -/

theorem paramNames_eq : sig.signature.paramNames =
    sig.posArgs.map (·.name) ++ sig.args.map (·.name) ++ sig.varArgs.toList ++
      sig.kwargs.map (·.name) ++ sig.varKwargs.toList := by
  rw [paramNames, signature_posArgs, signature_args, signature_kwargs, signature_varArgs,
    signature_varKwargs]

theorem length_names_kwStart : (sig.posArgs.map (·.name) ++ sig.args.map (·.name) ++
    sig.varArgs.toList).length = sig.kwStart := by
  rw [kwStart]
  cases sig.varArgs with
  | none => simp
  | some name => simp [Nat.add_assoc]

variable {i : Nat} {p : ParsedParam α}

theorem getElem?_paramNames (h : sig.paramAt i = some p) :
    sig.signature.paramNames[i]? = some p.name := by
  rw [paramNames_eq]
  rw [paramAt] at h
  split_ifs at h with h1 h2
  · rw [append_assoc, append_assoc, ← map_append,
      getElem?_append_left (by simpa using h1), getElem?_map]
    exact congrArg (Option.map (·.name)) h
  have hlt : i - sig.kwStart < (sig.kwargs.map (·.name)).length := by
    rw [length_map]
    exact (List.getElem?_eq_some_iff.mp h).1
  rw [append_assoc, getElem?_append_right (by rwa [length_names_kwStart]),
    length_names_kwStart, getElem?_append_left hlt, getElem?_map, h, map_some]

theorem paramAt_inj {j : Nat} {q : ParsedParam α} (hi : sig.paramAt i = some p)
    (hj : sig.paramAt j = some q) (h : p.name = q.name) : i = j := by
  have hi' := sig.getElem?_paramNames hi
  have hj' := sig.getElem?_paramNames hj
  refine (getElem?_inj (List.getElem?_eq_some_iff.mp hi').1 ?_).mp (hi'.trans (h ▸ hj'.symm))
  rw [paramNames_eq]
  exact sig.nodup

variable {name : String}

theorem keywordName_eq_some : sig.keywordName i = some name ↔
      sig.posArgs.length ≤ i ∧ ∃ p, sig.paramAt i = some p ∧ p.name = name := by
  rw [keywordName]
  split_ifs with h
  · exact ⟨nofun, fun ⟨h', _⟩ => by omega⟩
  · rw [map_eq_some_iff]
    exact ⟨fun hp => ⟨by omega, hp⟩, And.right⟩

theorem keywordName_inj {j : Nat} (hi : sig.keywordName i = some name)
    (hj : sig.keywordName j = some name) : i = j := by
  obtain ⟨-, p, hp, rfl⟩ := sig.keywordName_eq_some.mp hi
  obtain ⟨-, q, hq, hpq⟩ := sig.keywordName_eq_some.mp hj
  exact sig.paramAt_inj hp hq hpq.symm

theorem keywordName_arg (h : sig.args[i]? = some p) :
    sig.keywordName (sig.posArgs.length + i) = some p.name := by
  have hlt := (List.getElem?_eq_some_iff.mp h).1
  refine sig.keywordName_eq_some.mpr ⟨by omega, p, ?_, rfl⟩
  rw [paramAt, if_pos (by omega), positional, getElem?_append_right (by omega),
    Nat.add_sub_cancel_left, h]

theorem paramAt_kwarg (i : Nat) : sig.paramAt (sig.kwStart + i) = sig.kwargs[i]? := by
  rw [paramAt, if_neg (by rw [kwStart]; omega), if_pos (by omega), Nat.add_sub_cancel_left]

theorem keywordName_kwarg (h : sig.kwargs[i]? = some p) :
    sig.keywordName (sig.kwStart + i) = some p.name :=
  sig.keywordName_eq_some.mpr ⟨by rw [kwStart]; omega, p, by rw [paramAt_kwarg, h], rfl⟩

theorem takesKeyword_iff : sig.takesKeyword name = true ↔ ∃ i, sig.keywordName i = some name := by
  simp only [takesKeyword, Bool.or_eq_true, contains_iff_mem, List.mem_map]
  constructor
  · rintro (⟨p, hp, rfl⟩ | ⟨p, hp, rfl⟩)
    · obtain ⟨i, hi⟩ := mem_iff_getElem?.mp hp
      exact ⟨_, sig.keywordName_arg hi⟩
    · obtain ⟨i, hi⟩ := mem_iff_getElem?.mp hp
      exact ⟨_, sig.keywordName_kwarg hi⟩
  rintro ⟨i, hi⟩
  obtain ⟨hle, p, hp, rfl⟩ := sig.keywordName_eq_some.mp hi
  rw [paramAt] at hp
  split_ifs at hp with h1 h2
  · rw [positional, getElem?_append_right hle] at hp
    exact .inl ⟨p, mem_of_getElem? hp, rfl⟩
  · exact .inr ⟨p, mem_of_getElem? hp, rfl⟩

/-- Names of positional-only parameters are not those of others. -/
theorem takesKeyword_posArgs (h : name ∈ sig.posArgs.map (·.name)) :
    sig.takesKeyword name = false := by
  obtain ⟨p, hp, rfl⟩ := List.mem_map.mp h
  obtain ⟨i, hi⟩ := mem_iff_getElem?.mp hp
  have hlt := (List.getElem?_eq_some_iff.mp hi).1
  have hparam : sig.paramAt i = some p := by
    rw [paramAt, if_pos (by omega), positional, getElem?_append_left hlt, hi]
  rw [← Bool.not_eq_true, takesKeyword_iff]
  rintro ⟨j, hj⟩
  obtain ⟨hle, q, hq, hqp⟩ := sig.keywordName_eq_some.mp hj
  have := sig.paramAt_inj hparam hq hqp.symm
  omega

theorem lt_totalSlots (h : sig.paramAt i = some p) : i < sig.totalSlots := by
  rw [paramAt] at h
  rw [totalSlots]
  split_ifs at h with h1 h2
  · rw [kwStart]
    omega
  · have := (List.getElem?_eq_some_iff.mp h).1
    omega

variable {l : List (ParsedParam α)}

variable {memory : Memory} {func : Identifier} {v : α}

section

variable {state : KeywordState α}

theorem bindKeyword_posArg (h : name ∈ sig.posArgs.map (·.name)) :
    ∃ err, sig.signature.bindKeyword memory func state (.str name, v) = .error err := by
  rw [bindKeyword, signature_posArgs]
  cases hfind : (sig.posArgs.map (·.name)).find? (· = name) with
  | none => exact absurd (find?_eq_none.mp hfind name h) (by simp)
  | some param => exact ⟨_, rfl⟩

theorem find?_posArgs (h : name ∉ sig.posArgs.map (·.name)) :
    (sig.signature.posArgs.getD []).find? (· = name) = none := by
  refine find?_eq_none.mpr fun x hx => ?_
  rw [decide_eq_true_eq]
  rintro rfl
  exact h (by rwa [signature_posArgs] at hx)

theorem getElem?_of_findIdx? (h : (l.map (·.name)).findIdx? (· = name) = some i) :
    ∃ p, l[i]? = some p ∧ p.name = name := by
  obtain ⟨hi, hname, -⟩ := findIdx?_eq_some_iff_getElem.mp h
  rw [length_map] at hi
  refine ⟨l[i], getElem?_eq_getElem hi, ?_⟩
  simpa using hname

theorem bindKeyword_slot (h : sig.keywordName i = some name) :
    sig.signature.bindKeyword memory func state (.str name, v) = bindSlot func state i name v := by
  have htakes : sig.takesKeyword name = true := sig.takesKeyword_iff.mpr ⟨i, h⟩
  have hnot : name ∉ sig.posArgs.map (·.name) := by
    intro hmem
    rw [sig.takesKeyword_posArgs hmem] at htakes
    exact nomatch htakes
  rw [bindKeyword, sig.find?_posArgs hnot]
  rw [signature_args, signature_kwargs, signature_posArgCount, signature_kwStart]
  cases hargs : (sig.args.map (·.name)).findIdx? (· = name) with
  | some j =>
    obtain ⟨p, hp, rfl⟩ := getElem?_of_findIdx? hargs
    obtain rfl := sig.keywordName_inj h (sig.keywordName_arg hp)
    rfl
  | none =>
    cases hkwargs : (sig.kwargs.map (·.name)).findIdx? (· = name) with
    | some j =>
      obtain ⟨p, hp, rfl⟩ := getElem?_of_findIdx? hkwargs
      obtain rfl := sig.keywordName_inj h (sig.keywordName_kwarg hp)
      rfl
    | none =>
      simp only [findIdx?_eq_none_iff, decide_eq_false_iff_not] at hargs hkwargs
      simp only [takesKeyword, Bool.or_eq_true, contains_iff_mem] at htakes
      exact (htakes.elim (hargs _ · rfl) (hkwargs _ · rfl)).elim

theorem bindKeyword_excess (h : name ∉ sig.posArgs.map (·.name))
    (htakes : sig.takesKeyword name = false) :
    sig.signature.bindKeyword memory func state (.str name, v) =
      match state.excess with
      | some excess =>
        if memory.dictFits (dictSet excess name v).length then
          .ok { state with excess := some (dictSet excess name v) }
        else .error .memory
      | none => .error (.unexpectedKeyword func.name name) := by
  rw [bindKeyword, sig.find?_posArgs h]
  rw [signature_args, signature_kwargs]
  simp only [takesKeyword, Bool.or_eq_false_iff, contains_eq_mem, decide_eq_false_iff_not] at htakes
  have hnone : ∀ l : List String, name ∉ l → l.findIdx? (· = name) = none := by
    intro l hl
    refine findIdx?_eq_none_iff.mpr fun x hx => ?_
    rw [decide_eq_false_iff_not]
    rintro rfl
    exact hl hx
  have hargs := hnone _ htakes.1
  have hkwargs := hnone _ htakes.2
  cases hexcess : state.excess with
  | none => simp only [hargs, hkwargs]
  | some excess => simp only [hargs, hkwargs]

end

def afterKeywords (pos : List α) (kw : List (String × α)) (i : Nat) : Slot α :=
  sig.afterPositional pos i <|> ((sig.keywordName i).bind fun name => kw.lookup name).map .value

/-- What the loop over the keywords has made of some of them. -/
def keywordState (pos : List α) (kw : List (String × α)) : KeywordState α where
  slots := layout sig.totalSlots (sig.afterKeywords pos kw)
  excess := if sig.varKwargs.isSome then some (kw.filter fun e => !sig.takesKeyword e.1) else none

/-- A keyword of this name has a place to go. -/
def Takes (pos : List α) (name : String) : Prop :=
  (sig.varKwargs.isSome ∨ sig.takesKeyword name = true) ∧
    ∀ i, sig.keywordName i = some name → sig.afterPositional pos i = none

/-- A keyword of this name is not spelled like a positional-only parameter, or nothing would collect
it. -/
def Spares (name : String) : Prop :=
  sig.varKwargs = none ∨ name ∉ sig.posArgs.map ParsedParam.name

variable {kw : List (String × α)}

theorem lookup_of_not_mem (h : name ∉ kw.map Prod.fst) : kw.lookup name = none := by
  rw [lookup_eq_none_iff]
  intro e he
  rw [bne_iff_ne]
  rintro rfl
  exact h (mem_map_of_mem he)

theorem dictSet_of_not_mem {entries : List (String × α)}
    (h : name ∉ entries.map Prod.fst) : dictSet entries name v = entries ++ [(name, v)] := by
  rw [dictSet, if_neg]
  rw [any_eq_true]
  rintro ⟨e, he, hname⟩
  rw [decide_eq_true_eq] at hname
  exact h (hname ▸ mem_map_of_mem he)

section Keywords

variable {pos : List α}

theorem afterKeywords_append_of_ne (h : sig.keywordName i ≠ some name) :
    sig.afterKeywords pos (kw ++ [(name, v)]) i = sig.afterKeywords pos kw i := by
  rw [afterKeywords, afterKeywords]
  cases hi : sig.keywordName i with
  | none => rfl
  | some other =>
    have hne : (other == name) = false := by
      rw [beq_eq_false_iff_ne]
      rintro rfl
      exact h hi
    rw [bind_some, bind_some, lookup_append, lookup_cons, hne]
    simp

theorem bindKeyword_decides (hmemory : ∀ n, memory.dictFits n = true)
    (hkw : name ∉ kw.map Prod.fst) :
    Decides (sig.signature.bindKeyword memory func (sig.keywordState pos kw) (.str name, v))
      (sig.Takes pos name ∧ sig.Spares name) (sig.keywordState pos (kw ++ [(name, v)])) := by
  by_cases hpos : name ∈ sig.posArgs.map (·.name)
  · obtain ⟨err, herr⟩ : ∃ err, sig.signature.bindKeyword memory func (sig.keywordState pos kw)
        (.str name, v) = .error err := sig.bindKeyword_posArg hpos
    rw [herr]
    refine .error fun ⟨htakes, hname⟩ => ?_
    rcases htakes.1 with h | h
    · rw [hname.resolve_right (not_not_intro hpos)] at h
      exact nomatch h
    · rw [sig.takesKeyword_posArgs hpos] at h
      exact nomatch h
  refine Decides.congr ?_ (and_iff_left (.inr hpos)).symm
  by_cases htakes : sig.takesKeyword name = true
  · obtain ⟨i, hi⟩ := sig.takesKeyword_iff.mp htakes
    obtain ⟨-, p, hp, -⟩ := sig.keywordName_eq_some.mp hi
    rw [sig.bindKeyword_slot hi, bindSlot, keywordState,
      index_layout (sig.lt_totalSlots hp), ok_bind]
    have hslot : sig.afterKeywords pos kw i = sig.afterPositional pos i := by
      rw [afterKeywords, hi, bind_some, lookup_of_not_mem hkw]
      simp
    rw [hslot]
    cases hafter : sig.afterPositional pos i with
    | some b =>
      refine .error fun h => ?_
      rw [h.2 i hi] at hafter
      exact nomatch hafter
    | none =>
      have hok : sig.Takes pos name := by
        refine ⟨.inr htakes, fun j hj => ?_⟩
        rw [sig.keywordName_inj hj hi, hafter]
      convert Decides.ok hok using 1
      refine congrArg Except.ok ?_
      rw [keywordState, set_layout]
      congr 1
      · refine layout_congr fun j _ => ?_
        by_cases hji : j = i
        · subst hji
          rw [Function.update_self, afterKeywords, hafter, hi, bind_some, lookup_append,
            lookup_of_not_mem hkw, lookup_cons, BEq.rfl]
          rfl
        · rw [Function.update_of_ne hji,
            sig.afterKeywords_append_of_ne fun h => hji (sig.keywordName_inj h hi)]
      · rw [filter_append, filter_cons, htakes]
        simp
  · rw [Bool.not_eq_true] at htakes
    have hslots : sig.afterKeywords pos (kw ++ [(name, v)]) = sig.afterKeywords pos kw := by
      refine funext fun j => sig.afterKeywords_append_of_ne fun h => ?_
      rw [sig.takesKeyword_iff.mpr ⟨j, h⟩] at htakes
      exact nomatch htakes
    rw [sig.bindKeyword_excess hpos htakes, keywordState]
    split_ifs with hvar
    · have hnot : name ∉ (kw.filter fun e => !sig.takesKeyword e.1).map Prod.fst := by
        intro hmem
        obtain ⟨e, he, rfl⟩ := List.mem_map.mp hmem
        exact hkw (mem_map_of_mem (mem_of_mem_filter he))
      have hok : sig.Takes pos name := by
        refine ⟨.inl hvar, fun j hj => ?_⟩
        rw [sig.takesKeyword_iff.mpr ⟨j, hj⟩] at htakes
        exact nomatch htakes
      dsimp only
      rw [hmemory, if_pos rfl, dictSet_of_not_mem hnot]
      rw [keywordState, hslots, if_pos hvar, filter_append, filter_cons, htakes]
      exact .ok hok
    · refine .error fun h => ?_
      refine h.1.elim hvar fun h => ?_
      rw [htakes] at h
      exact nomatch h

/-- Keywords as they are in a call. -/
def keyed (kw : List (String × α)) : List (Key × α) := kw.map fun e => (.str e.1, e.2)

theorem bindKeywords_decides (hmemory : ∀ n, memory.dictFits n = true) (rest : List (String × α))
    (kw : List (String × α)) (hnodup : ((kw ++ rest).map Prod.fst).Nodup) :
    Decides ((keyed rest).foldlM (sig.signature.bindKeyword memory func) (sig.keywordState pos kw))
      (∀ e ∈ rest, sig.Takes pos e.1 ∧ sig.Spares e.1) (sig.keywordState pos (kw ++ rest)) := by
  induction rest generalizing kw with
  | nil =>
    rw [append_nil]
    exact .ok nofun
  | cons e rest ih =>
    have hkw : e.1 ∉ kw.map Prod.fst := by
      rw [map_append, nodup_append] at hnodup
      exact fun hmem => hnodup.2.2 _ hmem _ mem_cons_self rfl
    have happend : kw ++ e :: rest = kw ++ [e] ++ rest := by rw [append_assoc]; rfl
    rw [happend] at hnodup ⊢
    refine ((sig.bindKeyword_decides hmemory hkw).bind fun _ => ih (kw ++ [e]) hnodup).congr ?_
    rw [forall_mem_cons]

end Keywords

/-! ## Defaults -/

variable (h : l.Pairwise fun p q => p.default.isSome → q.default.isSome)

include h in
/-- Defaults that are at the end of the parameters are those of the last ones. -/
theorem default_of_trailing (i : Nat) : l[i]?.bind (·.default) =
      if l.length - (l.filterMap ParsedParam.default).length ≤ i then
        (l.filterMap ParsedParam.default)[i -
          (l.length - (l.filterMap ParsedParam.default).length)]?
      else none := by
  induction l generalizing i with
  | nil => simp
  | cons p l ih =>
    rw [pairwise_cons] at h
    have hle : (l.filterMap ParsedParam.default).length ≤ l.length := length_filterMap_le ..
    cases hp : p.default with
    | none =>
      rw [filterMap_cons_none hp, length_cons]
      cases i with
      | zero =>
        rw [if_neg (by omega)]
        simpa using hp
      | succ i =>
        rw [getElem?_cons_succ, ih h.2]
        have hsub : i + 1 - (l.length + 1 - (l.filterMap ParsedParam.default).length) =
            i - (l.length - (l.filterMap ParsedParam.default).length) := by omega
        rw [hsub]
        congr 1
        simp only [eq_iff_iff]
        omega
    | some v =>
      -- The others all have defaults.
      have hall : (l.filterMap ParsedParam.default).length = l.length := by
        rw [length_filterMap_eq_countP]
        exact countP_eq_length.mpr fun q hq => h.1 q hq (by rw [hp]; rfl)
      rw [filterMap_cons_some hp, length_cons, length_cons, hall, Nat.sub_self,
        if_pos (Nat.zero_le _), Nat.sub_zero]
      cases i with
      | zero => simpa using hp
      | succ i =>
        rw [getElem?_cons_succ, getElem?_cons_succ, ih h.2, hall, Nat.sub_self,
          if_pos (Nat.zero_le _), Nat.sub_zero]

theorem kwargDefaultMap_default (l : List (ParsedParam α)) {next : Nat} {values : List α}
    (h : values.drop next = l.filterMap ParsedParam.default) (i : Nat) :
    ((Call.kwargDefaultMap next l)[i]?.join.bind fun d => values[d]?) = l[i]?.bind (·.default) := by
  induction l generalizing next i with
  | nil => rfl
  | cons p l ih =>
    rw [Call.kwargDefaultMap]
    cases hp : p.default with
    | none =>
      rw [filterMap_cons_none hp] at h
      cases i with
      | zero => exact hp.symm
      | succ i => exact ih h i
    | some v =>
      rw [filterMap_cons_some hp] at h
      have hnext : values.drop (next + 1) = l.filterMap ParsedParam.default := by
        rw [← tail_drop, h, tail_cons]
      cases i with
      | zero =>
        have hv : values[next]? = some v := by
          rw [← head?_drop, h, head?_cons]
        simp [hv, hp]
      | succ i => exact ih hnext i

theorem length_kwargDefaultMap (l : List (ParsedParam α)) (next : Nat) :
    (Call.kwargDefaultMap next l).length = l.length := by
  induction l generalizing next with
  | nil => rfl
  | cons p l ih =>
    rw [Call.kwargDefaultMap]
    split_ifs <;> rw [length_cons, length_cons, ih]

theorem lt_of_mem_kwargDefaultMap {next d : Nat} (h : some d ∈ Call.kwargDefaultMap next l) :
    d < next + (l.filterMap ParsedParam.default).length := by
  induction l generalizing next with
  | nil => exact nomatch h
  | cons p l ih =>
    rw [Call.kwargDefaultMap] at h
    cases hp : p.default with
    | none =>
      rw [if_neg (by simp [hp])] at h
      rw [filterMap_cons_none hp]
      exact ih (by simpa using h)
    | some v =>
      rw [if_pos (by simp [hp]), mem_cons] at h
      rw [filterMap_cons_some hp, length_cons]
      rcases h with h | h
      · cases h
        omega
      · have := ih h
        omega

/-- One group of positional parameters, whose slots begin at `start`. -/
theorem applyDefaults_params {n : Nat} (values : List α) (start idx : Nat)
    (h : l.Pairwise fun p q => p.default.isSome → q.default.isSome) (hidx : idx ≤ values.length)
    (hvalues : l.filterMap ParsedParam.default <+: values.drop idx) (hn : start + l.length ≤ n)
    (f : Nat → Slot α) :
    applyDefaults values (start + (l.length - (l.filterMap ParsedParam.default).length))
      idx (layout n f)
        (l.filterMap ParsedParam.default).length =
      .ok (layout n fun i =>
        if start ≤ i then f i <|> (l[i - start]?.bind (·.default)).map .value else f i) := by
  have hle : (l.filterMap ParsedParam.default).length ≤ l.length := length_filterMap_le ..
  have hlen := hvalues.length_le
  rw [length_drop] at hlen
  rw [applyDefaults_layout f (by omega) (by omega)]
  refine congrArg Except.ok (layout_congr fun i _ => ?_)
  by_cases hstart : start ≤ i
  · rw [if_pos hstart, default_of_trailing h]
    by_cases hrange : l.length - (l.filterMap ParsedParam.default).length ≤ i - start ∧
        i - start < l.length
    · obtain ⟨rest, hrest⟩ := hvalues
      rw [if_pos (by omega), if_pos hrange.1, ← getElem?_drop, Nat.sub_sub, ← hrest,
        getElem?_append_left (by omega)]
    rw [if_neg (by omega)]
    split_ifs with hdefault
    · rw [getElem?_eq_none (by omega)]
      simp
    · simp
  · rw [if_neg hstart, if_neg (by omega)]

def afterDefaults (pos : List α) (kw : List (String × α)) (i : Nat) : Slot α :=
  sig.afterKeywords pos kw i <|> ((sig.paramAt i).bind ParsedParam.default).map .value

theorem applyAllDefaults_eq (f : Nat → Slot α) :
    sig.signature.applyAllDefaults sig.defaults (layout sig.totalSlots f) =
      .ok (layout sig.totalSlots fun i =>
        f i <|> ((sig.paramAt i).bind (·.default)).map .value) := by
  have htrailing := pairwise_append.mp sig.trailing
  have hkwargs : ∀ i : Nat, ((Call.kwargDefaultMap 0 sig.kwargs)[i]?.join.bind fun d =>
      sig.defaults[(sig.posArgs.filterMap ParsedParam.default).length +
        (sig.args.filterMap ParsedParam.default).length + d]?) =
      sig.kwargs[i]?.bind (·.default) := by
    intro i
    simp only [defaults, ← getElem?_drop]
    refine kwargDefaultMap_default sig.kwargs ?_ i
    rw [← length_append, drop_left, drop_zero]
  have hslots : sig.kwStart + sig.kwargs.length ≤ sig.totalSlots := by
    rw [totalSlots]
    omega
  have hstart : sig.posArgs.length + sig.args.length ≤ sig.kwStart := by
    rw [kwStart]
    omega
  have hlen : sig.defaults.length = (sig.posArgs.filterMap ParsedParam.default).length +
      (sig.args.filterMap ParsedParam.default).length +
      (sig.kwargs.filterMap ParsedParam.default).length := by
    rw [defaults, length_append, length_append]
  have hpos := applyDefaults_params sig.defaults 0 0 htrailing.1 (Nat.zero_le _)
    (by rw [drop_zero, defaults, append_assoc]; exact prefix_append ..)
    (by omega : _ ≤ sig.totalSlots) f
  rw [Nat.zero_add] at hpos
  rw [applyAllDefaults, signature_posArgCount, signature_posDefaultsCount, signature_argCount,
    signature_argDefaultsCount, signature_kwStart, signature_kwargDefaultMap, hpos, ok_bind,
    applyDefaults_params _ _ _ htrailing.2.1 (by omega) ?_ (by omega), ok_bind,
    applyKwDefaults_layout _ _ _ (by rwa [length_kwargDefaultMap]) ?_]
  · refine congrArg Except.ok (layout_congr fun i _ => ?_)
    simp only [hkwargs, Nat.zero_le, if_true, Nat.sub_zero, paramAt, positional]
    rcases Nat.lt_or_ge i sig.posArgs.length with h1 | h1
    · rw [if_neg (by omega), if_neg (by omega), if_pos (by omega), getElem?_append_left h1]
    rw [getElem?_eq_none h1, getElem?_append_right h1, if_pos h1]
    by_cases h2 : i < sig.posArgs.length + sig.args.length
    · rw [if_neg (by omega), if_pos h2]
      simp
    · rw [getElem?_eq_none (by omega), if_neg h2]
      split_ifs <;> simp
  · intro d hd
    have := lt_of_mem_kwargDefaultMap hd
    omega
  · rw [defaults, append_assoc, drop_left]
    exact prefix_append ..

/-! ## Parameters that are missing -/

theorem paramAt_positional (h : sig.positional[i]? = some p) : sig.paramAt i = some p := by
  have hlt := (List.getElem?_eq_some_iff.mp h).1
  rw [length_positional] at hlt
  rw [paramAt, if_pos hlt, h]

variable {Q : Nat → ParsedParam α → Prop}

/-- The parameters that have slots are the positional and the keyword-only ones. -/
theorem forall_paramAt : (∀ i p, sig.paramAt i = some p → Q i p) ↔
      (∀ i p, sig.positional[i]? = some p → Q i p) ∧
        ∀ i p, sig.kwargs[i]? = some p → Q (sig.kwStart + i) p := by
  constructor
  · exact fun h => ⟨fun i p hp => h i p (sig.paramAt_positional hp),
      fun i p hp => h _ p (by rw [paramAt_kwarg, hp])⟩
  rintro ⟨hpos, hkwargs⟩ i p hp
  rw [paramAt] at hp
  split_ifs at hp with h1 h2
  · exact hpos i p hp
  · have := hkwargs _ p hp
    rwa [Nat.add_sub_cancel' h2] at this

theorem forall_positional :
    (∀ i p, sig.positional[i]? = some p → Q i p) ↔ (∀ i p, sig.posArgs[i]? = some p → Q i p) ∧
        ∀ i p, sig.args[i]? = some p → Q (sig.posArgs.length + i) p := by
  rw [positional]
  constructor
  · refine fun h => ⟨fun i p hp => h i p ?_, fun i p hp => h _ p ?_⟩
    · rw [getElem?_append_left (List.getElem?_eq_some_iff.mp hp).1, hp]
    · rw [getElem?_append_right (by omega), Nat.add_sub_cancel_left, hp]
  rintro ⟨hpos, hargs⟩ i p hp
  rcases Nat.lt_or_ge i sig.posArgs.length with hlt | hge
  · exact hpos i p (by rwa [getElem?_append_left hlt] at hp)
  · rw [getElem?_append_right hge] at hp
    have := hargs _ p hp
    rwa [Nat.add_sub_cancel' hge] at this

include h in
theorem required_of_trailing (hp : l[i]? = some p) :
    decide (i < l.length - (l.filterMap ParsedParam.default).length) = true ↔ p.default = none := by
  have hlt := (List.getElem?_eq_some_iff.mp hp).1
  have hdefault := default_of_trailing h i
  rw [hp, bind_some] at hdefault
  rw [hdefault, decide_eq_true_eq]
  split_ifs with hrange
  · rw [getElem?_eq_none_iff]
    omega
  · exact iff_of_true (by omega) rfl

theorem required_kwarg (hp : l[i]? = some p) :
    (Call.kwargDefaultMap 0 l)[i]?.join.isNone = true ↔ p.default = none := by
  have hdefault := kwargDefaultMap_default l (drop_zero) i
  rw [hp, bind_some] at hdefault
  rw [← hdefault]
  cases hjoin : (Call.kwargDefaultMap 0 l)[i]?.join with
  | none => simp
  | some d =>
    have hlt := lt_of_mem_kwargDefaultMap (mem_of_getElem? (Option.join_eq_some_iff.mp hjoin))
    rw [Nat.zero_add] at hlt
    rw [bind_some, getElem?_eq_getElem hlt]
    simp

variable {f : Nat → Slot α}

theorem unbound_params (required : Nat → Bool) (start : Nat)
    (hrequired : ∀ i p, l[i]? = some p → (required i = true ↔ p.default = none))
    (hdefault : ∀ i p, l[i]? = some p → p.default.isSome → (f (start + i)).isSome) :
    unbound f required start 0 (l.map (·.name)) = [] ↔
      ∀ i p, l[i]? = some p → (f (start + i)).isSome := by
  rw [unbound_eq_nil, length_map]
  constructor
  · intro h i p hp
    cases hd : p.default with
    | none =>
      refine h i (List.getElem?_eq_some_iff.mp hp).1 ?_
      rw [Nat.zero_add, hrequired i p hp, hd]
    | some v => exact hdefault i p hp (by rw [hd]; rfl)
  · exact fun h i hi _ => h i _ (getElem?_eq_getElem hi)

theorem signature_kwargDefaultMap_bind (h : sig.kwargs[i]? = some p) :
    sig.signature.kwargDefaultMap.bind (·[i]?) = (Call.kwargDefaultMap 0 sig.kwargs)[i]? := by
  have hne : sig.kwargs.map (·.name) ≠ [] := by
    rw [Ne, map_eq_nil_iff]
    rintro hnil
    rw [hnil] at h
    exact nomatch h
  rw [signature, new]
  dsimp only
  rw [if_neg hne, bind_some]

theorem checkMissing_decides {func : Identifier}
    (hdefault : ∀ i p, sig.paramAt i = some p → p.default.isSome → (f i).isSome) :
    Decides (sig.signature.checkMissing func (layout sig.totalSlots f))
      (∀ i p, sig.paramAt i = some p → (f i).isSome) () := by
  have htrailing := pairwise_append.mp sig.trailing
  have hslots : sig.kwStart + sig.kwargs.length ≤ sig.totalSlots := by
    rw [totalSlots]
    omega
  have hstart : sig.posArgs.length + sig.args.length ≤ sig.kwStart := by
    rw [kwStart]
    omega
  rw [forall_paramAt, forall_positional] at hdefault ⊢
  rw [checkMissing, signature_posArgs, signature_args, signature_kwargs,
    signature_posArgCount, signature_argCount, signature_posDefaultsCount,
    signature_argDefaultsCount,
    signature_kwStart, missing_layout _ _ _ (by rw [length_map]; omega), ok_bind,
    missing_layout _ _ _ (by rw [length_map]; omega), ok_bind,
    missing_layout _ _ _ (by rw [length_map]; omega), ok_bind]
  have hpos := unbound_params _ 0 (fun i p => required_of_trailing htrailing.1)
    (by simpa only [Nat.zero_add] using hdefault.1.1)
  simp only [Nat.zero_add] at hpos
  have hargs := unbound_params _ _ (fun i p => required_of_trailing htrailing.2.1) hdefault.1.2
  have hkwargs := unbound_params
    (fun i => (sig.signature.kwargDefaultMap.bind (·[i]?)).join.isNone) sig.kwStart
    (fun i p hp => by rw [sig.signature_kwargDefaultMap_bind hp]; exact required_kwarg hp)
      hdefault.2
  rw [← hpos, ← hargs, ← hkwargs]
  split_ifs with h1 h2
  · exact .error fun h => h1 (append_eq_nil_iff.mpr h.1)
  · exact .error fun h => h2 h.2
  · exact .ok ⟨append_eq_nil_iff.mp (not_not.mp h1), not_not.mp h2⟩

end ParsedSignature

end Monty.Call
