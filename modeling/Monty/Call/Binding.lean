import Monty.Call.Convention

/-!
# Calls are bound by the convention

The passes together make `bindGeneral` accept just the calls that the convention accepts, with the
slots that it gives them. For signatures that take the fast path, `bindFast` has the same answers
and raises the same errors.
-/

namespace Monty.Call

open Fallible List Option Signature

variable {α : Type}

namespace ParsedSignature

variable (sig : ParsedSignature α)

/-! ## The whole call -/

variable {func : Identifier} {pos : List α}

theorem checkOverflow_decides {slots : List (Slot α)} :
    Decides (sig.signature.checkOverflow func pos.length slots)
      (sig.varArgs.isSome ∨ pos.length ≤ sig.positional.length) () := by
  rw [checkOverflow, maxPositionalCount, signature_varArgs, signature_posArgCount,
    signature_argCount, length_positional]
  by_cases hvar : sig.varArgs.isSome
  · rw [if_pos hvar]
    exact .ok (.inl hvar)
  rw [if_neg hvar, any_some]
  split_ifs with h
  · rw [decide_eq_true_eq] at h
    exact .error (by rintro (h' | h'); exacts [hvar h', by omega])
  · rw [decide_eq_true_eq] at h
    exact .ok (.inr (by omega))

variable {kw : List (String × α)} {p : ParsedParam α}

theorem afterDefaults_positional {i : Nat} (h : sig.positional[i]? = some p) :
    sig.afterDefaults pos kw i = (sig.positionalValue pos kw i p).map .value := by
  have hlt := (List.getElem?_eq_some_iff.mp h).1
  rw [length_positional] at hlt
  rw [afterDefaults, afterKeywords, afterPositional, if_pos hlt, keywordName,
    sig.paramAt_positional h, positionalValue, bind_some]
  split_ifs
  · cases pos[i]? <;> cases p.default <;> rfl
  · rw [map_some, bind_some]
    cases pos[i]? <;> cases kw.lookup p.name <;> cases p.default <;> rfl

theorem afterDefaults_kwarg {i : Nat} (h : sig.kwargs[i]? = some p) :
    sig.afterDefaults pos kw (sig.kwStart + i) = (keywordValue kw p).map .value := by
  rw [afterDefaults, afterKeywords, afterPositional, if_neg (by rw [kwStart]; omega),
    if_neg (by omega), sig.keywordName_kwarg h, paramAt_kwarg, h, keywordValue,
    bind_some, bind_some]
  cases kw.lookup p.name <;> cases p.default <;> rfl

variable {β : Type} {l : List β} {γ : Type}

theorem layout_eq_mapIdx {f : Nat → γ} {g : Nat → β → γ}
    (h : ∀ i b, l[i]? = some b → f i = g i b) : layout l.length f = l.mapIdx g := by
  refine ext_getElem? fun i => ?_
  rw [getElem?_layout, getElem?_mapIdx]
  split_ifs with hi
  · rw [getElem?_eq_getElem hi, map_some, h i _ (getElem?_eq_getElem hi)]
  · rw [getElem?_eq_none (Nat.not_lt.mp hi), map_none]

theorem layout_eq_map {f : Nat → γ} {g : β → γ}
    (h : ∀ i b, l[i]? = some b → f i = g b) : layout l.length f = l.map g := by
  rw [layout_eq_mapIdx h]
  exact ext_getElem? fun i => by rw [getElem?_mapIdx, getElem?_map]

theorem insertKwargs_eq (pos : List α) (kw : List (String × α)) :
    insertKwargs (sig.keywordState pos kw)
      (layout sig.totalSlots (sig.afterDefaults pos kw)) = sig.slots pos kw := by
  -- All slots but the last, which `**kwargs` has.
  have hparams : layout (sig.kwStart + sig.kwargs.length) (sig.afterDefaults pos kw) =
      (sig.positional.mapIdx fun i p => (sig.positionalValue pos kw i p).map .value) ++
        (if sig.varArgs.isSome then [some (.tuple (pos.drop sig.positional.length))] else []) ++
        sig.kwargs.map fun p => (keywordValue kw p).map .value := by
    have hkwargs : layout sig.kwargs.length (fun i => sig.afterDefaults pos kw (sig.kwStart + i)) =
        sig.kwargs.map fun p => (keywordValue kw p).map .value :=
      layout_eq_map fun i p => sig.afterDefaults_kwarg
    rw [layout_add, hkwargs, kwStart, layout_add, ← length_positional,
      layout_eq_mapIdx fun i p => sig.afterDefaults_positional]
    congr 2
    split_ifs with hvar
    · have hlt : sig.positional.length < sig.kwStart := by
        rw [kwStart, if_pos hvar, length_positional]
        omega
      have hslot : sig.afterDefaults pos kw sig.positional.length =
          some (.tuple (pos.drop sig.positional.length)) := by
        rw [afterDefaults, afterKeywords, afterPositional, ← length_positional,
          if_neg (Nat.lt_irrefl _), if_pos hlt]
        rfl
      rw [layout, range_one, map_singleton, Nat.add_zero, hslot]
    · rfl
  rw [slots, ← hparams, insertKwargs, keywordState]
  rw [totalSlots]
  split_ifs with hvar
  · dsimp only
    rw [length_layout, layout_add, Nat.add_sub_cancel, set_append_right _ _ (by simp)]
    simp [layout]
  · rw [Nat.add_zero, append_nil]

theorem accepts_iff :
    (∀ e ∈ kw, sig.Takes pos e.1) ∧ (sig.varArgs.isSome ∨ pos.length ≤ sig.positional.length) ∧
      (∀ i p, sig.paramAt i = some p → (sig.afterDefaults pos kw i).isSome) ↔
      sig.Accepts pos kw := by
  have hbound : (∀ i p, sig.paramAt i = some p → (sig.afterDefaults pos kw i).isSome) ↔
      (∀ i p, sig.positional[i]? = some p → (sig.positionalValue pos kw i p).isSome) ∧
        ∀ p ∈ sig.kwargs, (keywordValue kw p).isSome := by
    rw [forall_paramAt]
    refine and_congr (forall₂_congr fun i p => imp_congr_right fun hp => ?_) ?_
    · rw [sig.afterDefaults_positional hp, isSome_map]
    constructor
    · intro h p hp
      obtain ⟨i, hi⟩ := mem_iff_getElem?.mp hp
      have := h i p hi
      rwa [sig.afterDefaults_kwarg hi, isSome_map] at this
    · intro h i p hp
      rw [sig.afterDefaults_kwarg hp, isSome_map]
      exact h p (mem_of_getElem? hp)
  rw [hbound]
  constructor
  · rintro ⟨htakes, hroom, hpos, hkwargs⟩
    refine ⟨hroom, fun i p hp hi hle hmem => ?_, ?_, hpos, hkwargs⟩
    · obtain ⟨e, he, hname⟩ := mem_map.mp hmem
      have hparam := sig.paramAt_positional hp
      have hnone := (htakes e he).2 i (sig.keywordName_eq_some.mpr ⟨hle, p, hparam, hname.symm⟩)
      have hlt := (List.getElem?_eq_some_iff.mp hp).1
      rw [length_positional] at hlt
      rw [afterPositional, if_pos hlt, getElem?_eq_getElem hi] at hnone
      cases hnone
    by_cases hvar : sig.varKwargs.isSome
    · exact .inl hvar
    · refine .inr fun name hmem => ?_
      obtain ⟨e, he, rfl⟩ := mem_map.mp hmem
      exact (htakes e he).1.resolve_left hvar
  · rintro ⟨hroom, honce, hknown, hpos, hkwargs⟩
    refine ⟨fun e he => ⟨hknown.imp_right fun h => h _ (mem_map_of_mem he), fun i hi => ?_⟩, hroom,
      hpos, hkwargs⟩
    obtain ⟨hle, p, hp, hname⟩ := sig.keywordName_eq_some.mp hi
    rw [paramAt] at hp
    split_ifs at hp with h1 h2
    · rw [afterPositional, if_pos h1, map_eq_none_iff, List.getElem?_eq_none_iff]
      refine Nat.not_lt.mp fun hlt => honce i p hp hlt hle ?_
      exact hname ▸ mem_map_of_mem he
    · rw [afterPositional, if_neg h1, if_neg (by omega)]

variable {memory : Memory} (htuple : ∀ n, memory.tupleFits n = true)

include htuple in
theorem bindGeneral_decides
    (hdict : ∀ n, memory.dictFits n = true) (hnodup : (kw.map Prod.fst).Nodup) :
    Decides (sig.signature.bindGeneral memory func sig.defaults pos (keyed kw))
      (sig.Accepts pos kw ∧ ∀ e ∈ kw, sig.Spares e.1) (sig.slots pos kw) := by
  have hboth : (∀ e ∈ kw, sig.Takes pos e.1 ∧ sig.Spares e.1) ∧
      (sig.varArgs.isSome ∨ pos.length ≤ sig.positional.length) ∧
      (∀ i p, sig.paramAt i = some p → (sig.afterDefaults pos kw i).isSome) ↔
      sig.Accepts pos kw ∧ ∀ e ∈ kw, sig.Spares e.1 := by
    rw [← accepts_iff, forall₂_and, and_right_comm]
  have hstart : ({ slots := layout sig.totalSlots (sig.afterPositional pos)
                   excess := if sig.signature.varKwargs.isSome then some [] else none } :
      KeywordState α) = sig.keywordState pos [] := by
    rw [keywordState]
    congr 1
    exact layout_congr fun i _ => by simp [afterKeywords]
  rw [bindGeneral, sig.bindPositional_eq htuple, ok_bind, hstart]
  refine ((sig.bindKeywords_decides hdict kw [] hnodup).bind fun _ =>
    sig.checkOverflow_decides.bind fun _ => ?_).congr hboth
  rw [nil_append]
  have hdefaults : sig.signature.applyAllDefaults sig.defaults (sig.keywordState pos kw).slots =
      .ok (layout sig.totalSlots (sig.afterDefaults pos kw)) := sig.applyAllDefaults_eq _
  rw [hdefaults, ok_bind, ← sig.insertKwargs_eq pos kw]
  have hmissing : Decides
      (sig.signature.checkMissing func (layout sig.totalSlots (sig.afterDefaults pos kw)))
      (∀ i p, sig.paramAt i = some p → (sig.afterDefaults pos kw i).isSome) () := by
    refine sig.checkMissing_decides fun i p hp hdefault => ?_
    obtain ⟨v, hv⟩ := isSome_iff_exists.mp hdefault
    rw [afterDefaults, hp, bind_some, hv]
    simp
  refine (hmissing.bind fun _ => ?_).congr (and_iff_left trivial)
  exact .ok trivial

/-! ## The fast path -/

/-- The signatures of the fast path have only parameters that may be given by position and by
keyword. -/
structure Plain : Prop where
  posArgs : sig.posArgs = []
  varArgs : sig.varArgs = none
  kwargs : sig.kwargs = []
  varKwargs : sig.varKwargs = none

theorem ite_nil_eq_none : (if l = [] then none else some l : Option (List β)) = none ↔ l = [] := by
  split_ifs with h
  · exact iff_of_true rfl h
  · exact iff_of_false nofun h

theorem plain_of_bindMode (h : sig.signature.bindMode ≠ .complex) : sig.Plain := by
  have hpos : sig.signature.posArgs = none ↔ sig.posArgs = [] := by
    rw [← map_eq_nil_iff (f := ParsedParam.name)]
    exact ite_nil_eq_none
  have hkwargs : sig.signature.kwargs = none ↔ sig.kwargs = [] := by
    rw [← map_eq_nil_iff (f := ParsedParam.name)]
    exact ite_nil_eq_none
  rw [bindMode] at h
  split_ifs at h with h1 h2
  · exact ⟨hpos.mp h1.1, h1.2.2.2.1, hkwargs.mp h1.2.2.2.2.1, h1.2.2.2.2.2⟩
  · exact ⟨hpos.mp h2.1, h2.2.1, hkwargs.mp h2.2.2.1, h2.2.2.2.1⟩
  · exact absurd rfl h

theorem bindMode_of_defaults (h : sig.signature.bindMode ≠ .complex)
    (hdefaults : 0 < sig.signature.argDefaultsCount) :
    sig.signature.bindMode = .simpleWithDefaults := by
  rw [bindMode] at h ⊢
  split_ifs at h ⊢ with h1 h2
  · omega
  · rfl
  · exact absurd rfl h

theorem mapM_index {start n : Nat} (h : start + n = l.length) :
    ((range n).mapM fun i => index l (start + i)) = .ok (l.drop start) := by
  induction n generalizing start with
  | zero =>
    rw [drop_eq_nil_of_le (by omega)]
    rfl
  | succ n ih =>
    have hi : index l (start + 0) = .ok l[start] := by
      rw [index, Nat.add_zero, getElem?_eq_getElem (by omega)]
    have hrest : ((range n).mapM fun i => index l (start + (i + 1))) =
        .ok (l.drop (start + 1)) := by
      rw [← ih (by omega : start + 1 + n = l.length)]
      exact congrArg (mapM · _) (funext fun i => by rw [Nat.add_assoc, Nat.add_comm 1])
    rw [range_succ_eq_map, mapM_cons, hi, ok_bind, mapM_map]
    change (((range n).mapM fun i => index l (start + (i + 1))) >>= fun vs => pure
      (l[start] :: vs)) = _
    have hlt : start < l.length := by omega
    rw [hrest, ok_bind, drop_eq_getElem_cons hlt]
    rfl

/-- How many of the parameters have no default. -/
abbrev required : Nat := sig.args.length - (sig.args.filterMap ParsedParam.default).length

theorem required_le : sig.required ≤ sig.args.length := Nat.sub_le ..

/-- The names of those that are not given. -/
abbrev lacking (given : Nat) : List String :=
  ((sig.args.map ParsedParam.name).take sig.required).drop given

variable {sig} (hplain : sig.Plain)

include hplain

theorem Plain.slots_eq (pos : List α) : sig.slots pos [] = layout sig.args.length fun i =>
      (pos[i]? <|> sig.args[i]?.bind (·.default)).map .value := by
  rw [slots, hplain.varArgs, hplain.varKwargs, hplain.kwargs, positional, hplain.posArgs,
    nil_append]
  simp only [isSome_none, Bool.false_eq_true, if_false, append_nil, map_nil]
  refine (layout_eq_mapIdx fun i p hp => ?_).symm
  rw [hp, positionalValue, hplain.posArgs, bind_some]
  simp

theorem Plain.accepts_iff :
    sig.Accepts pos [] ↔ sig.required ≤ pos.length ∧ pos.length ≤ sig.args.length := by
  have htrailing := (pairwise_append.mp sig.trailing).2.1
  have hpositional : sig.positional = sig.args := by rw [positional, hplain.posArgs, nil_append]
  constructor
  · intro h
    have hroom : pos.length ≤ sig.args.length := by
      simpa [hplain.varArgs, hplain.posArgs] using h.room
    refine ⟨Nat.not_lt.mp fun hlt => ?_, hroom⟩
    have hp := getElem?_eq_getElem (Nat.lt_of_lt_of_le hlt sig.required_le)
    have hdefault := (required_of_trailing htrailing hp).mp (decide_eq_true hlt)
    have hbound := h.bound pos.length _ (by rw [hpositional, hp])
    rw [positionalValue, hdefault, hplain.posArgs, getElem?_eq_none (Nat.le_refl _)] at hbound
    cases hbound
  rintro ⟨hge, hle⟩
  refine ⟨.inr (by rwa [hpositional]), fun _ _ _ _ _ => not_mem_nil, .inr (by simp),
    fun i p hp => ?_, by rw [hplain.kwargs]; simp⟩
  rw [hpositional] at hp
  rw [positionalValue, hplain.posArgs]
  rcases Nat.lt_or_ge i pos.length with hlt | hge'
  · rw [getElem?_eq_getElem hlt]
    rfl
  · have hdefault := mt (required_of_trailing htrailing hp).mpr
      (by simpa using Nat.le_trans hge hge')
    obtain ⟨v, hv⟩ := ne_none_iff_exists'.mp hdefault
    rw [hv]
    simp

theorem Plain.requiredPositionalCount_eq :
    sig.signature.requiredPositionalCount = sig.required := by
  rw [requiredPositionalCount, signature_posArgCount, signature_argCount,
    signature_posDefaultsCount, signature_argDefaultsCount, hplain.posArgs]
  simp

theorem Plain.paramCount_eq : sig.signature.paramCount = sig.args.length := by
  rw [paramCount, signature_posArgCount, signature_argCount, signature_kwargCount,
    hplain.posArgs, hplain.kwargs]
  simp

theorem Plain.bindFast_of_accepts (hmode : sig.signature.bindMode ≠ .complex)
    (haccepts : sig.Accepts pos []) :
    sig.signature.bindFast func sig.defaults pos = .ok (sig.slots pos []) := by
  obtain ⟨hge, hle⟩ := hplain.accepts_iff.mp haccepts
  have hdefaults : sig.args.filterMap (·.default) = sig.defaults := by
    rw [defaults, hplain.posArgs, hplain.kwargs]
    simp
  have hcount : sig.defaults.length ≤ sig.args.length := hdefaults ▸ length_filterMap_le ..
  rw [bindFast, hplain.paramCount_eq, hplain.requiredPositionalCount_eq,
    signature_argDefaultsCount, hplain.slots_eq]
  rw [required, hdefaults] at hge ⊢
  split_ifs with hall hsome
  · refine congrArg Except.ok (ext_getElem? fun i => ?_)
    rw [getElem?_map, getElem?_layout, ← hall]
    split_ifs with hi
    · rw [getElem?_eq_getElem hi]
      rfl
    · rw [getElem?_eq_none (Nat.not_lt.mp hi)]
      rfl
  · have hvalues : ((range (sig.args.length - pos.length)).mapM fun i =>
          index sig.defaults (sig.defaults.length - (sig.args.length - pos.length) + i)) =
        .ok (sig.defaults.drop (sig.defaults.length - (sig.args.length - pos.length))) :=
      mapM_index (by omega)
    dsimp only
    rw [hvalues]
    refine congrArg Except.ok (ext_getElem? fun i => ?_)
    rw [getElem?_layout, default_of_trailing (pairwise_append.mp sig.trailing).2.1, hdefaults]
    rcases Nat.lt_or_ge i pos.length with hlt | hge'
    · rw [getElem?_append_left (by simpa using hlt), getElem?_map, if_pos (by omega),
        getElem?_eq_getElem hlt]
      rfl
    have hindex : sig.defaults.length - (sig.args.length - pos.length) + (i - pos.length) =
        i - (sig.args.length - sig.defaults.length) := by omega
    rw [getElem?_append_right (by simpa using hge'), length_map, getElem?_map,
      getElem?_drop, hindex, getElem?_eq_none hge', if_pos (Nat.le_trans hge hge')]
    split_ifs with hi
    · rw [getElem?_eq_getElem (by omega)]
      rfl
    · rw [getElem?_eq_none (by omega)]
      rfl
  · refine absurd ⟨sig.bindMode_of_defaults hmode ?_, hge, by omega⟩ hsome
    rw [signature_argDefaultsCount, hdefaults]
    omega

theorem Plain.checkMissing_eq {f : Nat → Slot α} {given : Nat}
    (hf : ∀ i < sig.required, f i = none ↔ given ≤ i) (h : given < sig.required) :
    sig.signature.checkMissing func (layout sig.totalSlots f) =
      .error (.missingPositional func.name (sig.lacking given)) := by
  have hslots : sig.args.length ≤ sig.totalSlots := by
    rw [totalSlots, kwStart]
    omega
  have hargs : missing (layout sig.totalSlots f) (· < sig.required) 0 0 (sig.args.map (·.name)) =
      .ok (sig.lacking given) := by
    rw [missing_layout _ _ _ (by simpa using hslots), unbound_eq_drop hf,
      Nat.sub_zero, Nat.sub_zero]
  have hne : sig.lacking given ≠ [] := by
    rw [Ne, drop_eq_nil_iff, length_take, length_map, Nat.min_eq_left sig.required_le]
    exact Nat.not_le.mpr h
  rw [checkMissing, signature_posArgs, signature_args, signature_kwargs,
    signature_posArgCount, signature_argCount, signature_argDefaultsCount, hplain.posArgs,
    hplain.kwargs, length_nil, hargs]
  exact if_pos hne

include htuple in
theorem Plain.bindGeneral_missing (h : pos.length < sig.required) :
    sig.signature.bindGeneral memory func sig.defaults pos [] =
      .error (.missingPositional func.name (sig.lacking pos.length)) := by
  have htrailing := (pairwise_append.mp sig.trailing).2.1
  have hle : sig.varArgs.isSome ∨ pos.length ≤ sig.positional.length :=
    .inr (by rw [length_positional]; have := sig.required_le; omega)
  rw [bindGeneral, sig.bindPositional_eq htuple, ok_bind, foldlM_nil]
  change (sig.signature.checkOverflow func pos.length _ >>= _) = _
  rw [sig.checkOverflow_decides.eq_ok hle, ok_bind, applyAllDefaults_eq, ok_bind,
    hplain.checkMissing_eq (fun i hi => ?_) h]
  · rfl
  -- Such a parameter has no default.
  have hlt : i < sig.args.length := Nat.lt_of_lt_of_le hi sig.required_le
  have hp : sig.paramAt i = some sig.args[i] := by
    rw [paramAt, hplain.posArgs, positional, hplain.posArgs, nil_append, length_nil,
      Nat.zero_add, if_pos hlt, getElem?_eq_getElem hlt]
  have hdefault := (required_of_trailing htrailing (getElem?_eq_getElem hlt)).mp (decide_eq_true hi)
  rw [hp, bind_some, hdefault, afterPositional, if_pos (by omega)]
  simp

include htuple in
theorem Plain.bindGeneral_tooMany (h : sig.args.length < pos.length) :
    sig.signature.bindGeneral memory func sig.defaults pos [] =
      .error (.tooManyPositional func.name sig.required sig.args.length pos.length 0) := by
  have hoverflow : ∀ slots : List (Slot α), sig.signature.checkOverflow func pos.length slots =
      .error (.tooManyPositional func.name sig.required sig.args.length pos.length 0) := by
    intro slots
    rw [checkOverflow, maxPositionalCount, signature_varArgs, hplain.varArgs,
      hplain.requiredPositionalCount_eq, signature_posArgCount, signature_argCount,
      signature_kwargCount, hplain.posArgs, hplain.kwargs]
    simp [h]
  rw [bindGeneral, sig.bindPositional_eq htuple, ok_bind, foldlM_nil]
  change (sig.signature.checkOverflow func pos.length _ >>= _) = _
  rw [hoverflow]
  rfl

include htuple in
omit hplain in
/-- The fast path has the answers and the errors of the general one. -/
theorem bindFast_eq (hdict : ∀ n, memory.dictFits n = true)
    (hmode : sig.signature.bindMode ≠ .complex) (func : Identifier) (pos : List α) :
    (sig.signature.bindFast func sig.defaults pos).mapError Raised.error =
      sig.signature.bindGeneral memory func sig.defaults pos [] := by
  have hplain := sig.plain_of_bindMode hmode
  by_cases haccepts : sig.Accepts pos []
  · rw [hplain.bindFast_of_accepts hmode haccepts]
    have hnodup : (([] : List (String × α)).map Prod.fst).Nodup := nodup_nil
    exact ((sig.bindGeneral_decides htuple hdict hnodup).eq_ok
      ⟨haccepts, fun _ he => absurd he not_mem_nil⟩).symm
  have hnot := mt hplain.accepts_iff.mpr haccepts
  have hwrong : sig.signature.bindFast func sig.defaults pos =
      .error (sig.signature.wrongArgCountError func pos.length) := by
    rw [bindFast, hplain.paramCount_eq, hplain.requiredPositionalCount_eq,
      if_neg (by have := sig.required_le; omega), if_neg (by omega)]
  have hnames : sig.signature.paramNames = sig.args.map (·.name) := by
    rw [paramNames_eq, hplain.posArgs, hplain.varArgs, hplain.kwargs, hplain.varKwargs]
    simp
  rw [hwrong, wrongArgCountError, hplain.paramCount_eq, hplain.requiredPositionalCount_eq, hnames]
  split_ifs with hfew
  · exact (hplain.bindGeneral_missing htuple hfew).symm
  · exact (hplain.bindGeneral_tooMany htuple (by omega)).symm

omit hplain

/-! ## Calls -/

section

variable (sig) (htuple : ∀ n, memory.tupleFits n = true)
  (hdict : ∀ n, memory.dictFits n = true) {args : ArgValues α}

include htuple hdict

theorem bind_decides (hparts : args.intoParts = (pos, keyed kw)) (hnodup : (kw.map Prod.fst).Nodup)
    (func : Identifier) (ns : List (Slot α)) :
    Decides (sig.signature.bind memory args sig.defaults func ns)
      (sig.Accepts pos kw ∧ ∀ e ∈ kw, sig.Spares e.1) (ns ++ sig.slots pos kw) := by
  have hgeneral : Decides (sig.signature.bindGeneral memory func sig.defaults pos (keyed kw))
      (sig.Accepts pos kw ∧ ∀ e ∈ kw, sig.Spares e.1) (sig.slots pos kw) :=
    sig.bindGeneral_decides htuple hdict hnodup
  rw [Signature.bind, hparts]
  dsimp only
  split_ifs with hfast
  · obtain rfl : kw = [] := by simpa [keyed] using hfast.1
    rw [keyed, map_nil, ← bindFast_eq htuple hdict hfast.2 func pos] at hgeneral
    refine ((decides_mapError.mp hgeneral).bind fun _ => ?_).congr (and_iff_left trivial)
    exact .ok trivial
  · refine ((decides_mapError.mpr hgeneral).bind fun _ => ?_).congr (and_iff_left trivial)
    exact .ok trivial

/-- What a caller may rely on that skips the binding. -/
theorem bind_exact {n : Nat} (h : sig.signature.exactPositionalCount = some n)
    (hparts : args.intoParts = (pos, [])) (hlen : pos.length = n) (func : Identifier)
    (ns : List (Slot α)) :
    sig.signature.bind memory args sig.defaults func ns =
      .ok (ns ++ pos.map fun v => some (.value v)) := by
  rw [exactPositionalCount] at h
  split_ifs at h with hexact
  obtain ⟨-, -, hvar, hkwargs, hvarKw⟩ := hexact
  replace hkwargs : sig.kwargs = [] := by
    rw [← map_eq_nil_iff (f := ParsedParam.name)]
    exact ite_nil_eq_none.mp hkwargs
  have hcount : pos.length = sig.positional.length := by
    rw [hlen, ← Option.some.inj h, paramCount, signature_posArgCount, signature_argCount,
      signature_kwargCount, hkwargs, length_positional, length_nil, Nat.add_zero]
  have hvalue : ∀ i p, sig.positional[i]? = some p → sig.positionalValue pos [] i p = pos[i]? := by
    intro i p hp
    have hlt := (List.getElem?_eq_some_iff.mp hp).1
    rw [positionalValue, getElem?_eq_getElem (by omega)]
    rfl
  have haccepts : sig.Accepts pos [] := by
    refine ⟨.inr (by omega), fun _ _ _ _ _ => not_mem_nil, .inr (by simp), fun i p hp => ?_,
      by rw [hkwargs]; simp⟩
    have hlt := (List.getElem?_eq_some_iff.mp hp).1
    rw [hvalue i p hp, getElem?_eq_getElem (by omega)]
    rfl
  have hslots : sig.slots pos [] = pos.map fun v => some (.value v) := by
    rw [signature_varArgs] at hvar
    rw [signature_varKwargs] at hvarKw
    rw [slots, hvar, hkwargs, hvarKw]
    simp only [isSome_none, Bool.false_eq_true, if_false, append_nil, map_nil]
    rw [← layout_eq_mapIdx fun i p hp => congrArg _ (hvalue i p hp).symm, ← hcount]
    exact layout_eq_map fun i v hv => by rw [hv]; rfl
  rw [← hslots]
  have hkeyed : args.intoParts = (pos, keyed []) := hparts
  exact (sig.bind_decides htuple hdict hkeyed nodup_nil func ns).eq_ok
    ⟨haccepts, fun _ he => absurd he not_mem_nil⟩

/-- A call is accepted just if the convention accepts it, with the values of the convention, unless
it has a keyword that should be collected and is spelled like a positional-only parameter: then, and
only then, a call that Python accepts is refused. -/
theorem bind_follows_convention {kw : List (String × α)} (hparts : args.intoParts = (pos, keyed kw))
    (hnodup : (kw.map Prod.fst).Nodup) (func : Identifier) (ns : List (Slot α)) :
    (Decides (sig.signature.bind memory args sig.defaults func ns) (sig.Accepts pos kw)
        (ns ++ sig.slots pos kw) ↔ (sig.Accepts pos kw → ∀ e ∈ kw, sig.Spares e.1)) ∧
      (sig.signature.bindMode ≠ .complex →
        (sig.signature.bindFast func sig.defaults pos).mapError Raised.error =
          sig.signature.bindGeneral memory func sig.defaults pos []) := by
  refine ⟨?_, fun hmode => bindFast_eq htuple hdict hmode func pos⟩
  rw [(sig.bind_decides htuple hdict hparts hnodup func ns).iff, and_iff_left_iff_imp]

end

end ParsedSignature

/-! ## A function with a positional-only parameter and `**kwargs` -/

/-- Memory that holds anything. -/
def Memory.unlimited : Memory := ⟨fun _ => true, fun _ => true⟩

/-- `f(1, 2)` for `def f(a, /, b)`. -/
theorem bind_exact_two : ∃ sig : ParsedSignature Nat, sig.posArgs ≠ [] ∧
    sig.signature.bind Memory.unlimited (.two 1 2) sig.defaults ⟨"f", 0⟩ [some (.value 0)] =
      .ok [some (.value 0), some (.value 1), some (.value 2)] :=
  ⟨⟨[⟨"a", none⟩], [⟨"b", none⟩], none, [], none, by decide, by decide⟩, nofun,
    @ParsedSignature.bind_exact _ _ [1, 2] _ (fun _ => rfl) (fun _ => rfl) _ _ rfl rfl rfl _ _⟩

/-- `def f(a, /, **kw)`. -/
def kwSignature : ParsedSignature Nat where
  posArgs := [⟨"a", none⟩]
  args := []
  varArgs := none
  kwargs := []
  varKwargs := some "kw"
  nodup := by decide
  trailing := pairwise_singleton ..

theorem kwSignature_accepts (name : String) : kwSignature.Accepts [1] [(name, 2)] where
  room := .inr (by decide)
  once i p _ hi hle := absurd hle (Nat.not_le.mpr hi)
  known := .inl rfl
  bound i p hp := by
    cases i with
    | zero => rfl
    | succ i => exact nomatch hp
  kwonly := nofun

theorem bind_follows_convention_kwargs :
    kwSignature.signature.bind Memory.unlimited (.argsKargs [1] [(.str "b", 2)])
      kwSignature.defaults
      ⟨"f", 0⟩ [] = .ok [some (.value 1), some (.dict [("b", 2)])] :=
  ((kwSignature.bind_follows_convention (fun _ => rfl) (fun _ => rfl) rfl (by decide)
    ⟨"f", 0⟩ []).1.mpr
    fun _ => by simp [ParsedSignature.Spares, kwSignature]).eq_ok (kwSignature_accepts "b")

/-- Python accepts `f(1, a=2)` and puts the keyword into `kw`. -/
theorem positional_only_keyword_refused : (kwSignature.Accepts [1] [("a", 2)] ∧
      kwSignature.slots [1] [("a", 2)] = [some (.value 1), some (.dict [("a", 2)])]) ∧
    kwSignature.signature.bind Memory.unlimited (.argsKargs [1] [(.str "a", 2)])
      kwSignature.defaults
      ⟨"f", 0⟩ [] = .error ⟨.positionalOnly "f" "a", none⟩ :=
  ⟨⟨kwSignature_accepts "a", rfl⟩, rfl⟩

end Monty.Call
