import Monty.Bytecode.Draft

/-!
# The builder builds a draft

What each call of the builder does if it succeeds, and so that every call is a move of a draft
(`ensures_call`): the bytes of the builder are those of the instructions of the draft, and where the
builder overwrites two bytes the draft has another operand.
-/

namespace Monty.Bytecode

open Fallible Assembly CodeBuilder Entry

variable {Pos Const : Type}

/-! ## Conversions -/

theorem toNat_of_u16Of {x : Int} {w : UInt16} (h : u16Of x = some w) : (w.toNat : Int) = x := by
  rw [u16Of] at h
  split at h
  case isTrue hx =>
    have hlt : x.toNat < UInt16.size := by
      rw [UInt16.size]
      omega
    rw [← Option.some.inj h, UInt16.toNat_ofNat_of_lt' hlt]
    omega
  case isFalse => cases h

theorem toInt_of_i16Of {x : Int} {r : Int16} (h : i16Of x = some r) : r.toInt = x := by
  rw [i16Of] at h
  split at h
  case isTrue hx =>
    rw [← Option.some.inj h]
    exact Int16.toInt_ofInt_of_le hx.1 hx.2
  case isFalse => cases h

theorem shape_of_stackEffect {op : Opcode} {operand : Operand} {δ : Int}
    (h : op.stackEffect operand = some δ) : op.operandShape = operand.shape := by
  by_contra hne
  simp [Opcode.stackEffect, hne] at h

variable {debug : Bool} {op : Opcode} {depth : UInt16}

/-! ## The calls of the builder -/

namespace CodeBuilder

variable {b : CodeBuilder Pos Const} {operand : Operand}

/-- An instruction was emitted in live code. -/
structure Emitted (debug : Bool) (depth : UInt16) (i : Instr) (b b' : CodeBuilder Pos Const) :
    Prop where
  bytecode : b'.bytecode = b.bytecode ++ i.encode
  encodable : codec.Encodable i
  falls : Falls debug depth i b'.currentStackDepth

theorem ensures_endRegion : Ensures (endRegion op) b (fun _ b' => b'.bytecode = b.bytecode ∧
      b'.currentStackDepth = if op.isTerminator then none else b.currentStackDepth)
      fun _ _ => True := by
  rw [endRegion]
  split
  · exact ⟨rfl, rfl⟩
  · exact ⟨rfl, rfl⟩

theorem ensures_calculateJumpOffset (origin : JumpLabelInner Pos) (target : JumpTargetInner) :
    Ensures (calculateJumpOffset debug origin target) b
      (fun relative b' => b' = b ∧ (debug = true → origin.stackDepth = target.stackDepth) ∧
        ∀ r, relative = some r → Leads origin.offset r target.offset) fun _ _ => True := by
  rw [calculateJumpOffset]
  split
  · exact trivial
  case isFalse h =>
    refine ⟨rfl, fun hdebug => ?_, fun r hr => ?_⟩
    · by_contra hne
      exact h ⟨hdebug, hne⟩
    · rw [Leads, toInt_of_i16Of hr]
      omega

theorem ensures_setByte (i : Nat) (byte : UInt8) : Ensures (setByte i byte) b
      (fun _ b' => b' = { b with bytecode := b.bytecode.set i byte }) fun _ _ => True := by
  refine .get_bind ?_
  split
  · exact rfl
  · exact trivial

theorem ensures_arrive (label : JumpLabelInner Pos) :
    Ensures (arrive label) b (fun depth b' => b' = { b with currentStackDepth := some depth } ∧
      ∀ n, b.currentStackDepth = some n → n = depth) fun _ _ => True := by
  refine .get_bind ?_
  cases h : b.currentStackDepth with
  | some depth =>
    refine .pure ⟨?_, fun n hn => (Option.some.inj hn).symm⟩
    rw [← h]
  | none =>
    have hregion : newCodeRegion label.stackDepth b =
        .ok ⟨⟩ { b with currentStackDepth := some label.stackDepth } := by
      rw [newCodeRegion, get_bind_apply, h]
      rfl
    exact .bind_of_eq hregion (.pure ⟨rfl, fun n hn => nomatch hn⟩)

/-- Two bytes of the code are overwritten. -/
def overwrite (code : List UInt8) (offset : Nat) (relative : Int16) : List UInt8 :=
  (code.set (offset + 1) (UInt8.ofNat relative.toUInt16.toNat)).set (offset + 2)
    (UInt8.ofNat (relative.toUInt16.toNat / 256))

theorem ensures_patchOperand (offset : Nat) (relative : Int16) :
    Ensures (patchOperand offset relative) b
      (fun _ b' => b' = { b with bytecode := overwrite b.bytecode offset relative })
      fun _ _ => True := by
  refine (ensures_setByte _ _).bind fun _ b1 h1 => ?_
  refine (ensures_setByte _ _).mono (fun _ b2 h2 => ?_) fun _ _ _ => trivial
  rw [h2, h1]
  rfl

theorem ensures_patchJump (label : JumpLabelInner Pos) :
    Ensures (patchJump debug (some label)) b (fun _ b' => ∃ depth relative, b' = { b with
        currentStackDepth := some depth
        bytecode := overwrite b.bytecode label.offset relative } ∧
      (∀ n, b.currentStackDepth = some n → n = depth) ∧ (debug = true → label.stackDepth = depth) ∧
        Leads label.offset relative b.bytecode.length) fun _ _ => True := by
  refine (ensures_arrive label).bind fun depth b1 h1 => ?_
  obtain ⟨rfl, hdepth⟩ := h1
  refine .get_bind ?_
  refine (ensures_calculateJumpOffset label _).bind fun relative b2 h2 => ?_
  obtain ⟨rfl, hdebug, hleads⟩ := h2
  cases relative with
  | none => exact trivial
  | some r =>
    refine (ensures_patchOperand _ _).mono (fun _ b3 h3 => ?_) fun _ _ _ => trivial
    exact ⟨depth, r, h3, hdepth, hdebug, hleads r rfl⟩

variable [Inhabited Pos]

theorem ensures_recordLocation : Ensures recordLocation b (fun _ b' => b'.bytecode = b.bytecode ∧
      b'.currentStackDepth = b.currentStackDepth) fun _ _ => True := by
  refine .get_bind ?_
  cases b.currentLocation with
  | none => exact .pure ⟨rfl, rfl⟩
  | some range =>
    dsimp only
    split
    · exact ⟨rfl, rfl⟩
    · exact trivial

theorem ensures_pushOperand : Ensures (pushOperand operand) b (fun _ b' => operand.kwCount ≤ 255 ∧
      b'.bytecode = b.bytecode ++ operand.bytes ∧ b'.currentStackDepth = b.currentStackDepth)
      fun _ _ => True := by
  refine .get_bind ?_
  split
  case isTrue h => exact ⟨h, rfl, rfl⟩
  case isFalse => exact trivial

variable (hlive : b.currentStackDepth = some depth)

include hlive in
theorem ensures_adjustStack (delta : Int) :
    Ensures (adjustStack debug delta) b (fun _ b' => b'.bytecode = b.bytecode ∧
      ∃ newDepth, b'.currentStackDepth = some newDepth ∧
        (debug = true → (newDepth.toNat : Int) = depth.toNat + delta)) fun _ _ => True := by
  refine .get_bind ?_
  rw [hlive]
  dsimp only
  split
  · exact trivial
  case isFalse hneg =>
    cases hu : u16Of (max (depth.toNat + delta) 0) with
    | none => exact trivial
    | some newDepth =>
      refine ⟨rfl, newDepth, rfl, fun hdebug => ?_⟩
      have := toNat_of_u16Of hu
      have : ¬ (depth.toNat : Int) + delta < 0 := fun h => hneg ⟨hdebug, h⟩
      omega

theorem emitWithOperand_dead (h : b.currentStackDepth = none) :
    emitWithOperand debug op operand b = .ok ⟨⟩ b := by
  rw [emitWithOperand, get_bind_apply, h]
  rfl

include hlive in
theorem ensures_emitWithOperand : Ensures (emitWithOperand debug op operand) b
      (fun _ b' => Emitted debug depth ⟨op, operand⟩ b b') fun _ _ => True := by
  refine .get_bind ?_
  rw [hlive]
  refine ensures_recordLocation.bind fun _ b1 h1 => ?_
  refine .modify_bind _ ?_
  refine ensures_pushOperand.bind fun _ b2 h2 => ?_
  have hlive2 : b2.currentStackDepth = some depth := h2.2.2.trans (h1.2.trans hlive)
  rw [applyEffect]
  cases heffect : op.stackEffect operand with
  | none => exact trivial
  | some δ =>
    refine (ensures_adjustStack hlive2 δ).bind fun _ b3 h3 => ?_
    refine ensures_endRegion.mono (fun _ b4 h4 => ?_) fun _ _ _ => trivial
    obtain ⟨newDepth, hdepth, hdebug⟩ := h3.2
    refine ⟨?_, ⟨shape_of_stackEffect heffect, h2.1⟩, δ, newDepth, heffect, hdebug, ?_⟩
    · rw [h4.1, h3.1, h2.2.1, h1.1, List.append_assoc]
      rfl
    · rw [h4.2, hdepth]

theorem ensures_takenDepth :
    Ensures (takenDepth op depth) b (fun taken b' => b' = b ∧ Jumps depth op taken)
      fun _ _ => True := by
  refine .get_bind ?_
  cases heffect : op.jumpTakenStackEffect with
  | none => exact trivial
  | some δ =>
    cases hu : u16Of (depth.toNat + δ) with
    | none =>
      dsimp only
      rw [hu]
      exact trivial
    | some taken =>
      dsimp only
      rw [hu]
      exact ⟨rfl, δ, heffect, toNat_of_u16Of hu⟩

theorem emitJump_dead (h : b.currentStackDepth = none) : emitJump debug op b = .ok none b := by
  rw [emitJump, get_bind_apply, h]
  rfl

include hlive in
theorem ensures_emitJump : Ensures (emitJump debug op) b (fun label b' => ∃ taken position,
      label = some ⟨b.bytecode.length, taken, position⟩ ∧ Jumps depth op taken ∧
        Emitted debug depth ⟨op, .offset 0⟩ b b') fun _ _ => True := by
  refine .get_bind ?_
  rw [hlive]
  refine ensures_takenDepth.bind fun taken b1 h1 => ?_
  obtain ⟨rfl, hjumps⟩ := h1
  refine (ensures_emitWithOperand hlive).bind fun _ b2 h2 => ?_
  exact ⟨taken, _, rfl, hjumps, h2⟩

theorem emitJumpTo_dead (h : b.currentStackDepth = none) (target : JumpTarget) :
    emitJumpTo debug op target b = .ok ⟨⟩ b := by
  rw [emitJumpTo, get_bind_apply, h]
  rfl

include hlive in
theorem ensures_emitJumpTo (target : JumpTarget) :
    Ensures (emitJumpTo debug op target) b (fun _ b' => ∃ t taken relative, target = some t ∧
      Jumps depth op taken ∧ (debug = true → taken = t.stackDepth) ∧
        Leads b.bytecode.length relative t.offset ∧ Emitted debug depth ⟨op, .offset relative⟩ b b')
      fun _ _ => True := by
  refine .get_bind ?_
  rw [hlive]
  refine ensures_takenDepth.bind fun taken b1 h1 => ?_
  obtain ⟨rfl, hjumps⟩ := h1
  cases target with
  | none => exact trivial
  | some t =>
    refine .get_bind ?_
    refine (ensures_calculateJumpOffset _ t).bind fun relative b2 h2 => ?_
    obtain ⟨rfl, hdebug, hleads⟩ := h2
    cases relative with
    | none => exact trivial
    | some r =>
      refine (ensures_emitWithOperand hlive).mono (fun _ b3 h3 => ?_) fun _ _ _ => trivial
      exact ⟨t, taken, r, rfl, hjumps, hdebug, hleads r rfl, h3⟩

/-- Overwriting the operand of a jump. -/
theorem overwrite_encode (before after : List UInt8) (old relative : Int16) :
    overwrite (before ++ (Instr.encode ⟨op, .offset old⟩ ++ after)) before.length relative =
      before ++ (Instr.encode ⟨op, .offset relative⟩ ++ after) := by
  simp [overwrite, Instr.encode, Operand.bytes, u16Bytes, ByteStream.leBytes]

end CodeBuilder

/-! ## Sessions and their drafts -/

/-- The draft of what a session has built. -/
structure Drafts (s : Session Pos Const) (d : Draft Pos) : Prop where
  bytecode : s.builder.bytecode = codec.assemble (d.entries.map Entry.instr)
  log : s.log = d.entries.map Entry.emission
  depth : s.builder.currentStackDepth = d.depth
  labels : s.labels = d.labels
  targets : s.targets = d.targets
  patches : s.patches = d.patches

variable {s : Session Pos Const} {d : Draft Pos} {b : CodeBuilder Pos Const}

namespace Drafts

variable {i : Instr}

theorem empty : Drafts ({} : Session Pos Const) {} := ⟨rfl, rfl, rfl, rfl, rfl, rfl⟩

theorem length (h : Drafts s d) : s.builder.bytecode.length = d.extent := by
  rw [h.bytecode, Codec.length_assemble, Draft.extent, extent, extent, List.map_map]
  rfl

theorem push (h : Drafts s d) (he : Emitted debug depth i s.builder b) (meaning : Meaning)
    (ls : List (JumpLabel Pos)) :
    Drafts { s with
        builder := b
        log := s.log ++ [⟨depth, i.op, meaning⟩]
        labels := s.labels ++ ls }
      (d.push ⟨depth, meaning, i⟩ b.currentStackDepth ls) where
  bytecode := by
    rw [he.bytecode, h.bytecode]
    simp [Codec.assemble, Draft.push, codec]
  log := by
    rw [h.log]
    simp [Draft.push, emission]
  depth := rfl
  labels := by rw [h.labels, Draft.push_labels]
  targets := h.targets
  patches := h.patches

/-- Patching changes the operand of an entry. -/
theorem patch (h : Drafts s d) (hd : d.Valid) {l : Nat} {label : JumpLabelInner Pos}
    (hl : d.labels[l]? = some (some label)) {relative : Int16}
    (hdepth : ∀ n, s.builder.currentStackDepth = some n → n = depth)
    (hdebug : debug = true → label.stackDepth = depth)
    (hleads : Leads label.offset relative s.builder.bytecode.length) :
    ∃ d', Move debug d d' ∧ Drafts { s with
      builder := { s.builder with
        currentStackDepth := some depth
        bytecode := overwrite s.builder.bytecode label.offset relative }
      patches := (l, s.builder.bytecode.length) :: s.patches } d' := by
  obtain ⟨e, he, hm⟩ := hd.label l label hl
  obtain ⟨-, old, -, -, hoperand⟩ := hd.operand_of_forward he hm
  obtain ⟨xs, ys, hentries, hoffset⟩ := exists_append_of_mem_placed he
  rw [Nat.zero_add] at hoffset
  rw [h.depth] at hdepth
  rw [h.length] at hleads
  refine ⟨_, .patch hl hentries hoffset hm hdepth hdebug hleads, ?_, ?_, rfl, h.labels, h.targets,
    ?_⟩
  · have hinstr : e.instr = ⟨e.instr.op, .offset old⟩ := by rw [← hoperand]
    have hbefore : label.offset = (codec.assemble (xs.map instr)).length := by
      rw [hoffset, Codec.length_assemble, extent, extent, List.map_map]
      rfl
    have hcode : ∀ e : Entry, codec.assemble ((xs ++ e :: ys).map instr) =
        codec.assemble (xs.map instr) ++
          (e.instr.encode ++ codec.assemble (ys.map instr)) := fun e => by
      simp [Codec.assemble, codec]
    rw [h.bytecode, hentries, hcode, hcode, hinstr, hbefore, overwrite_encode]
    rfl
  · rw [h.log, hentries]
    simp [withOffset, emission]
  · rw [h.patches, h.length]

end Drafts

theorem Emit.operand_ne_offset (e : Emit) (relative : Int16) :
    e.instr.operand ≠ .offset relative := by
  cases e with
  | emitLoadLocal slot =>
    rw [Emit.instr, Emit.localInstr]
    split_ifs <;> exact Operand.noConfusion
  | emitStoreLocal slot =>
    rw [Emit.instr, Emit.localInstr]
    split_ifs <;> exact Operand.noConfusion
  | _ => exact Operand.noConfusion

namespace Session

/-- What a call leaves behind is the next draft. -/
def Drafted (debug : Bool) (d : Draft Pos) (s : Session Pos Const) : Prop :=
  ∃ d', Move debug d d' ∧ Drafts s d'

/-- A call that emits, seen from the session: nothing happens in dead code. -/
theorem note_dead (h : s.builder.currentStackDepth = none) (meaning : Meaning) :
    note op meaning s = .ok ⟨⟩ s := by
  rw [note, modify_apply, h]

theorem note_live {depth : UInt16} (h : s.builder.currentStackDepth = some depth)
    (meaning : Meaning) :
    note op meaning s = .ok ⟨⟩ { s with log := s.log ++ [⟨depth, op, meaning⟩] } := by
  rw [note, modify_apply, h]

theorem ensures_onBuilder {β : Type} {x : BuilderM Pos Const β}
    {R : β → CodeBuilder Pos Const → Prop} (hx : Ensures x b R fun _ _ => True)
    (hs : s.builder = b) :
    Ensures (onBuilder x) s (fun a s' => ∃ builder, s' = { s with builder } ∧ R a builder)
      fun _ _ => True := by
  subst hs
  exact hx.zoom.mono (fun _ _ h => h) fun _ _ _ => trivial

/-- A call that changes neither the code nor the depth. -/
theorem drafted_of_same (h : Drafts s d) {β : Type} {x : BuilderM Pos Const β}
    (hx : Ensures x s.builder (fun _ b => b.bytecode = s.builder.bytecode ∧
      b.currentStackDepth = s.builder.currentStackDepth) fun _ _ => True) :
    Ensures (onBuilder x) s (fun _ s' => Drafted debug d s') fun _ _ => True := by
  refine (ensures_onBuilder hx rfl).mono (fun _ s' hs' => ?_) fun _ _ _ => trivial
  obtain ⟨b, rfl, hbytes, hdepth⟩ := hs'
  exact ⟨d, .idle d, hbytes.trans h.bytecode, h.log, hdepth.trans h.depth, h.labels, h.targets,
    h.patches⟩

theorem ensures_patchJump (h : Drafts s d) (hd : d.Valid) (l : Nat) :
    Ensures (patchJump debug l) s (fun _ s' => Drafted debug d s') fun _ _ => True := by
  refine .get_bind ?_
  cases hl : s.labels[l]? with
  | none => exact trivial
  | some label =>
    cases label with
    | none =>
      have hidle : onBuilder (CodeBuilder.patchJump debug none) s = .ok ⟨⟩ s := rfl
      rw [h.labels] at hl
      exact .bind_of_eq hidle ⟨_, .deadPatch hl, h.bytecode, h.log, h.depth, h.labels, h.targets,
        congrArg₂ (fun n ps => (l, n) :: ps) h.length h.patches⟩
    | some label =>
      refine (ensures_onBuilder (CodeBuilder.ensures_patchJump label) rfl).bind fun _ s' hs' => ?_
      obtain ⟨b, rfl, depth, relative, rfl, hdepth, hdebug, hleads⟩ := hs'
      rw [h.labels] at hl
      have hlen : (overwrite s.builder.bytecode label.offset relative).length =
          s.builder.bytecode.length := by simp [overwrite]
      have hpatch := h.patch hd hl hdepth hdebug hleads
      rw [← hlen] at hpatch
      exact hpatch

variable [Inhabited Pos]

theorem ensures_emit (h : Drafts s d) (e : Emit) :
    Ensures (call debug (.emit e)) s (fun _ s' => Drafted debug d s') fun _ _ => True := by
  cases hdepth : s.builder.currentStackDepth with
  | none =>
    refine .bind_of_eq (note_dead hdepth _) (drafted_of_same h ?_)
    refine .get_bind ?_
    split
    · exact trivial
    · exact .of_eq (emitWithOperand_dead hdepth) ⟨rfl, rfl⟩
  | some depth =>
    refine .bind_of_eq (note_live hdepth _) ?_
    have hrun : Ensures (e.run debug) s.builder
        (fun _ b => Emitted debug depth e.instr s.builder b) fun _ _ => True := by
      refine .get_bind ?_
      split
      · exact trivial
      · exact ensures_emitWithOperand hdepth
    refine (ensures_onBuilder (s := { s with log := s.log ++ [⟨depth, _, .plain _⟩] }) hrun
      rfl).mono
      (fun _ s' hs' => ?_) fun _ _ _ => trivial
    obtain ⟨b, rfl, he⟩ := hs'
    refine ⟨_, .plain (h.depth.symm.trans hdepth) he.encodable e.operand_ne_offset he.falls, ?_⟩
    simpa using h.push he (.plain e.instr.operand) []

theorem ensures_emitJump (h : Drafts s d) (op : Opcode) :
    Ensures (emitJump debug op) s (fun _ s' => Drafted debug d s') fun _ _ => True := by
  refine .get_bind ?_
  cases hdepth : s.builder.currentStackDepth with
  | none =>
    refine .bind_of_eq (note_dead hdepth _) ?_
    have hjump : onBuilder (CodeBuilder.emitJump debug op) s = .ok none s := by
      rw [onBuilder, zoom, emitJump_dead hdepth]
    exact .bind_of_eq hjump ⟨_, .deadLabel d, h.bytecode, h.log, h.depth,
      congrArg (· ++ [none]) h.labels, h.targets, h.patches⟩
  | some depth =>
    refine .bind_of_eq (note_live hdepth _) ?_
    refine (ensures_onBuilder (s := { s with log := s.log ++ [⟨depth, op, .forward _⟩] })
      (CodeBuilder.ensures_emitJump hdepth) rfl).bind fun label s' hs' => ?_
    obtain ⟨b, rfl, taken, position, rfl, hjumps, he⟩ := hs'
    have hmove : Move debug d _ :=
      .forward position (h.depth.symm.trans hdepth) he.encodable hjumps he.falls
    rw [← h.length, ← h.labels] at hmove
    exact ⟨_, hmove, h.push he _ _⟩

theorem ensures_emitJumpTo (h : Drafts s d) (op : Opcode) (i : Nat) :
    Ensures (emitJumpTo debug op i) s (fun _ s' => Drafted debug d s') fun _ _ => True := by
  refine .get_bind ?_
  cases htarget : s.targets[i]? with
  | none => exact trivial
  | some target =>
    cases hdepth : s.builder.currentStackDepth with
    | none =>
      refine .bind_of_eq (note_dead hdepth _) (drafted_of_same h ?_)
      exact .of_eq (emitJumpTo_dead hdepth target) ⟨rfl, rfl⟩
    | some depth =>
      refine .bind_of_eq (note_live hdepth _) ?_
      refine (ensures_onBuilder (s := { s with log := s.log ++ [⟨depth, op, .backward _⟩] })
        (CodeBuilder.ensures_emitJumpTo hdepth target) rfl).mono (fun _ s' hs' => ?_)
        fun _ _ _ => trivial
      obtain ⟨b, rfl, t, taken, relative, rfl, hjumps, hdebug, hleads, he⟩ := hs'
      have hmem : some t ∈ d.targets := h.targets ▸ List.mem_of_getElem? htarget
      rw [h.length] at hleads
      refine ⟨_, .backward (h.depth.symm.trans hdepth) he.encodable hjumps he.falls hmem hdebug
        hleads, ?_⟩
      simpa using h.push he (.backward t.offset) []

/-- **Every call is a move of the draft.** -/
theorem ensures_call (h : Drafts s d) (hd : d.Valid) (c : Call Pos Const) :
    Ensures (call debug c) s (fun _ s' => Drafted debug d s') fun _ _ => True := by
  cases c with
  | emit e => exact ensures_emit h e
  | emitJump op => exact ensures_emitJump h op
  | patchJump l => exact ensures_patchJump h hd l
  | emitJumpTo op i => exact ensures_emitJumpTo h op i
  | currentJumpTarget =>
    have htarget : s.builder.currentJumpTarget = d.depth.map fun n => ⟨d.extent, n⟩ := by
      rw [currentJumpTarget, h.depth, h.length]
    exact ⟨_, .target d, h.bytecode, h.log, h.depth, h.labels,
      congrArg₂ (fun ts t => ts ++ [t]) h.targets htarget, h.patches⟩
  | newCodeRegion depth =>
    have hregion : Ensures (newCodeRegion depth) s.builder
        (fun _ b => b = { s.builder with currentStackDepth := some depth } ∧
          s.builder.currentStackDepth = none) fun _ _ => True := by
      refine .get_bind ?_
      cases hdepth : s.builder.currentStackDepth with
      | none => exact ⟨rfl, rfl⟩
      | some n => exact trivial
    refine (ensures_onBuilder hregion rfl).mono (fun _ s' hs' => ?_) fun _ _ _ => trivial
    obtain ⟨b, rfl, rfl, hdead⟩ := hs'
    exact ⟨_, .region depth (h.depth.symm.trans hdead), h.bytecode, h.log, rfl, h.labels, h.targets,
      h.patches⟩
  | setLocation range focus => exact drafted_of_same h ⟨rfl, rfl⟩
  | addConst value =>
    have hadd : Ensures (addConst value) s.builder (fun _ b => b.bytecode = s.builder.bytecode ∧
          b.currentStackDepth = s.builder.currentStackDepth) fun _ _ => True := by
      refine .get_bind ?_
      split
      · exact trivial
      · exact ⟨rfl, rfl⟩
    exact (drafted_of_same h hadd).bind fun _ s' hs' => hs'
  | addExceptionEntry entry =>
    refine drafted_of_same h (.get_bind ?_)
    split
    · exact ⟨rfl, rfl⟩
    · exact trivial
  | registerLocalNames names =>
    refine drafted_of_same h (.get_bind ?_)
    split
    · exact trivial
    · exact ⟨rfl, rfl⟩
  | registerLocalName slot name => exact drafted_of_same h ⟨rfl, rfl⟩

/-- **A session builds a draft by moves**, from the empty one; every draft on the way is valid. -/
theorem ensures_calls {P : Draft Pos → Prop} (hP : ∀ d d', Move debug d d' → d.Valid → P d → P d')
    (cs : List (Call Pos Const)) (h : Drafts s d) (hd : d.Valid) (hPd : P d) :
    Ensures (calls debug cs) s (fun _ s' => ∃ d', Drafts s' d' ∧ d'.Valid ∧ P d')
      fun _ _ => True := by
  induction cs generalizing s d with
  | nil => exact .pure ⟨d, h, hd, hPd⟩
  | cons c cs ih =>
    refine (ensures_call h hd c).bind fun _ s' hs' => ?_
    obtain ⟨d', hmove, h'⟩ := hs'
    exact ih h' (hmove.valid hd) (hP d d' hmove hd hPd)

end Session

end Monty.Bytecode
