import Monty.Bytecode.Layout

/-!
# The depth of the operand stack

The builder tracks one depth from call to call, while the code is a graph. If the debug assertions
of the builder hold, the depth that it tracked for an instruction is the one on every path to the
instruction (`depth_of_reaches`). Without them it need not be: a release build takes a depth below
zero for zero (`release_depth_ne`).
-/

namespace Monty.Bytecode

open Fallible Assembly List Draft Session Prod Option

variable {Pos Const : Type}

/-! ## Exact drafts -/

namespace Draft

variable {d d' : Draft Pos} {pos : Nat} {e : Entry} {n : UInt16}

/-- The depth at a position: that of the instruction there, or the current one at the end. -/
def DepthAt (d : Draft Pos) (pos : Nat) (n : UInt16) : Prop :=
  (∃ e, (pos, e) ∈ d.placed ∧ e.depth = n) ∨ (pos = d.extent ∧ d.depth = some n)

structure Exact (d : Draft Pos) : Prop where
  falls : ∀ pos e, (pos, e) ∈ d.placed → e.instr.op.isTerminator = false →
    ∃ δ n, e.instr.op.stackEffect e.instr.operand = some δ ∧ (n.toNat : Int) = e.depth.toNat + δ ∧
      d.DepthAt (pos + e.size) n
  label : ∀ (l : Nat) (label : JumpLabelInner Pos) e, d.labels[l]? = some (some label) →
    (label.offset, e) ∈ d.placed → Jumps e.depth e.instr.op label.stackDepth
  backward : ∀ pos e t, (pos, e) ∈ d.placed → e.meaning = .backward t →
    ∃ n, Jumps e.depth e.instr.op n ∧ d.DepthAt t n
  target : ∀ t, some t ∈ d.targets → d.DepthAt t.offset t.stackDepth
  patch : ∀ l t (label : JumpLabelInner Pos), (l, t) ∈ d.patches →
    d.labels[l]? = some (some label) → d.DepthAt t label.stackDepth

theorem lt_extent (he : (pos, e) ∈ d.placed) : pos < d.extent := by
  have := (add_size_le_of_mem_placed he).2
  have := e.size_pos
  rw [extent]
  omega

theorem DepthAt.eq (h : d.DepthAt pos n) (he : (pos, e) ∈ d.placed) : e.depth = n := by
  rcases h with ⟨e', he', rfl⟩ | ⟨rfl, -⟩
  · rw [placed_unique Entry.size_pos he he']
  · exact absurd (lt_extent he) (lt_irrefl _)

theorem DepthAt.boundary (h : d.DepthAt pos n) : d.Boundary pos := by
  rcases h with ⟨e, he, -⟩ | ⟨rfl, -⟩
  · exact .inl ⟨e, he⟩
  · exact boundary_end

theorem placed_push (e : Entry) (depth : Option UInt16) (ls : List (JumpLabel Pos)) :
    (d.push e depth ls).placed = d.placed ++ [(d.extent, e)] := by
  rw [placed, push, placed_append, Nat.zero_add]
  rfl

theorem DepthAt.push (h : d.DepthAt pos n) (hdepth : d.depth = some e.depth)
    (depth : Option UInt16) (ls : List (JumpLabel Pos)) : (d.push e depth ls).DepthAt pos n := by
  rw [DepthAt, placed_push]
  rcases h with ⟨e', he', rfl⟩ | ⟨rfl, hn⟩
  · exact .inl ⟨e', mem_append_left _ he', rfl⟩
  · exact .inl ⟨e, by simp, mem_unique hdepth hn⟩

section

variable (h : d.Exact)
  (hlabels : ∀ (l : Nat) label, d'.labels[l]? = some (some label) →
    d.labels[l]? = some (some label))
  (htargets : ∀ t, some t ∈ d'.targets → some t ∈ d.targets ∨ d'.DepthAt t.offset t.stackDepth)
  (hpatches : ∀ l t (label : JumpLabelInner Pos), (l, t) ∈ d'.patches →
    d.labels[l]? = some (some label) → (l, t) ∈ d.patches ∨ d'.DepthAt t label.stackDepth)

include h hlabels htargets hpatches

/-- A change that leaves the entries as they are, up to the offsets of jumps. -/
theorem Exact.update
    (hentries : ∀ pos e, (pos, e) ∈ d'.placed → ∃ e0, (pos, e0) ∈ d.placed ∧ e.depth = e0.depth ∧
      e.meaning = e0.meaning ∧ e.size = e0.size ∧ e.instr.op = e0.instr.op ∧
      e.instr.op.stackEffect e.instr.operand = e0.instr.op.stackEffect e0.instr.operand)
    (hdepths : ∀ pos n, d.DepthAt pos n → d'.DepthAt pos n) : d'.Exact where
  falls pos e he hop := by
    obtain ⟨e0, he0, hdepth, -, hsize, hop0, heffect⟩ := hentries pos e he
    obtain ⟨δ, n, hδ, hn, hat⟩ := h.falls pos e0 he0 (hop0 ▸ hop)
    exact ⟨δ, n, heffect.trans hδ, hdepth ▸ hn, hsize ▸ hdepths _ _ hat⟩
  label l label e hl he := by
    obtain ⟨e0, he0, hdepth, -, -, hop0, -⟩ := hentries _ e he
    rw [hdepth, hop0]
    exact h.label l label e0 (hlabels l label hl) he0
  backward pos e t he hm := by
    obtain ⟨e0, he0, hdepth, hm0, -, hop0, -⟩ := hentries pos e he
    obtain ⟨n, hn, hat⟩ := h.backward pos e0 t he0 (hm0 ▸ hm)
    rw [hdepth, hop0]
    exact ⟨n, hn, hdepths _ _ hat⟩
  target t ht := by
    rcases htargets t ht with ht | ht
    · exact hdepths _ _ (h.target t ht)
    · exact ht
  patch l t label ht hl := by
    rcases hpatches l t label ht (hlabels l label hl) with ht | ht
    · exact hdepths _ _ (h.patch l t label ht (hlabels l label hl))
    · exact ht

/-- A change that leaves the entries as they are. -/
theorem Exact.update_of_entries (hentries : d'.entries = d.entries)
    (hdepth : ∀ n, d.depth = some n → d'.depth = some n) : d'.Exact := by
  refine h.update hlabels htargets hpatches (fun pos e he => ⟨e, ?_, rfl, rfl, rfl, rfl, rfl⟩)
    fun pos n hat => ?_
  · rwa [placed, hentries] at he
  · rw [DepthAt, placed, extent, hentries]
    exact hat.imp_right (.imp_right (hdepth n))

end

/-- One more instruction: the depth before it is the current one. -/
theorem Exact.push (h : d.Exact) (hd : d.Valid) (hdepth : d.depth = some e.depth)
    {depth' : Option UInt16} (hfalls : Falls true e.depth e.instr depth')
    {ls : List (JumpLabel Pos)}
    (hls : ∀ (i : Nat) (label : JumpLabelInner Pos), ls[i]? = some (some label) →
      label.offset = d.extent ∧ Jumps e.depth e.instr.op label.stackDepth)
    (hback : ∀ t, e.meaning = .backward t → ∃ n, Jumps e.depth e.instr.op n ∧ d.DepthAt t n) :
    (d.push e depth' ls).Exact where
  falls pos e' he' hop := by
    rw [placed_push] at he'
    rcases mem_append.mp he' with he' | he'
    · obtain ⟨δ, n, hδ, hn, hat⟩ := h.falls pos e' he' hop
      exact ⟨δ, n, hδ, hn, hat.push hdepth _ _⟩
    · obtain ⟨rfl, rfl⟩ := Prod.mk.inj (mem_singleton.mp he')
      obtain ⟨δ, n, hδ, hn, rfl⟩ := hfalls
      refine ⟨δ, n, hδ, hn rfl, .inr ⟨?_, by rw [hop]; rfl⟩⟩
      simp [push, extent]
  label l label e' hl he' := by
    rw [placed_push] at he'
    by_cases hlt : l < d.labels.length
    · have hl : d.labels[l]? = some (some label) := (List.getElem?_append_left hlt).symm.trans hl
      obtain ⟨e0, he0, -⟩ := hd.label l label hl
      rcases mem_append.mp he' with he' | he'
      · exact h.label l label e' hl he'
      · have := lt_extent he0
        have := (Prod.mk.inj (mem_singleton.mp he')).1
        omega
    rw [push_labels, List.getElem?_append_right (not_lt.mp hlt)] at hl
    obtain ⟨hoffset, hjumps⟩ := hls _ label hl
    rcases mem_append.mp he' with he' | he'
    · have := lt_extent he'
      omega
    · rw [(Prod.mk.inj (mem_singleton.mp he')).2]
      exact hjumps
  backward pos e' t he' hm := by
    rw [placed_push] at he'
    rcases mem_append.mp he' with he' | he'
    · obtain ⟨n, hn, hat⟩ := h.backward pos e' t he' hm
      exact ⟨n, hn, hat.push hdepth _ _⟩
    · obtain ⟨rfl, rfl⟩ := Prod.mk.inj (mem_singleton.mp he')
      obtain ⟨n, hn, hat⟩ := hback t hm
      exact ⟨n, hn, hat.push hdepth _ _⟩
  target t ht := (h.target t ht).push hdepth _ _
  patch l t label ht hl := by
    have hlt := (hd.patch l t ht).1
    exact (h.patch l t label ht ((List.getElem?_append_left hlt).symm.trans hl)).push hdepth _ _

end Draft

/-- The effect of a jump does not depend on where it leads. -/
theorem Opcode.stackEffect_offset (op : Opcode) (r r' : Int16) :
    op.stackEffect (.offset r) = op.stackEffect (.offset r') := by
  cases op <;> rfl

open Draft in
/-- **With the debug assertions every move keeps drafts exact.** -/
theorem Move.exact {d d' : Draft Pos} (hmove : Move true d d') (hd : d.Valid) (h : d.Exact) :
    d'.Exact := by
  cases hmove with
  | idle => exact h
  | region depth hdead =>
    exact h.update_of_entries (fun _ _ hl => hl) (fun t ht => .inl ht) (fun _ _ _ ht _ => .inl ht)
      rfl fun n hn => nomatch hdead.symm.trans hn
  | target =>
    refine h.update_of_entries (fun _ _ hl => hl) (fun t ht => ?_) (fun _ _ _ ht _ => .inl ht) rfl
      fun n hn => hn
    rcases mem_append.mp ht with ht | ht
    · exact .inl ht
    · obtain ⟨n, hn, rfl⟩ := Option.map_eq_some_iff.mp (mem_singleton.mp ht).symm
      exact .inr (.inr ⟨rfl, hn⟩)
  | deadLabel =>
    refine h.update_of_entries (fun l label hl => ?_) (fun t ht => .inl ht)
      (fun _ _ _ ht _ => .inl ht) rfl fun n hn => hn
    rw [List.getElem?_append] at hl
    split at hl
    · exact hl
    · simp [List.getElem?_singleton] at hl
  | @deadPatch l hl =>
    refine h.update_of_entries (fun _ _ hl => hl) (fun t ht => .inl ht)
      (fun l' t label ht hl' => ?_) rfl fun n hn => hn
    rcases mem_cons.mp ht with heq | ht
    · rw [(Prod.mk.inj heq).1, hl] at hl'
      cases hl'
    · exact .inl ht
  | plain hdepth henc hoperand hfalls =>
    exact h.push hd hdepth hfalls (fun i label hl => by simp at hl) fun t ht => nomatch ht
  | @forward depth taken op depth' position hdepth henc hjumps hfalls =>
    refine h.push hd hdepth hfalls (fun i label hl => ?_) fun t ht => nomatch ht
    obtain ⟨-, rfl⟩ : i = 0 ∧ label = ⟨d.extent, taken, position⟩ := by
      simpa [List.getElem?_singleton, eq_comm] using hl
    exact ⟨rfl, hjumps⟩
  | @backward depth taken op depth' target relative hdepth henc hjumps hfalls htarget
    hdebug hleads =>
    refine h.push hd hdepth hfalls (fun i label hl => by simp at hl) fun t ht => ?_
    obtain rfl : target.offset = t := by simpa using ht
    refine ⟨taken, hjumps, ?_⟩
    rw [hdebug rfl]
    exact h.target target htarget
  | @patch l label xs ys e depth relative hl hentries hoffset hm hdepth hdebug hleads =>
    have he : (label.offset, e) ∈ d.placed := by
      rw [Draft.placed, hentries, hoffset]
      exact mem_placed_zero xs ys e
    obtain ⟨-, old, -, -, hoperand⟩ := hd.operand_of_forward he hm
    have hsize : (e.withOffset relative).size = e.size := Entry.size_withOffset hoperand relative
    have hextent : Assembly.extent Entry.size (xs ++ e.withOffset relative :: ys) = d.extent := by
      rw [extent_replace hsize, Draft.extent, hentries]
    refine h.update (fun _ _ hl => hl) (fun t ht => .inl ht) (fun l' t label' ht hl' => ?_)
      (fun pos e' he' => ?_) fun pos n hat => ?_
    · rcases mem_cons.mp ht with heq | ht
      · obtain ⟨rfl, rfl⟩ := Prod.mk.inj heq
        obtain rfl : label = label' := Option.some.inj (mem_unique hl hl')
        exact .inr (.inr ⟨hextent.symm, by rw [hdebug rfl]⟩)
      · exact .inl ht
    · rcases mem_placed_replace hsize he' with ⟨rfl, rfl⟩ | he'
      · refine ⟨e, by rwa [Nat.zero_add, ← hoffset], rfl, rfl, hsize, rfl, ?_⟩
        rw [hoperand]
        exact Opcode.stackEffect_offset _ _ _
      · exact ⟨e', by rwa [Draft.placed, hentries], rfl, rfl, rfl, rfl, rfl⟩
    · rcases hat with ⟨e', he', rfl⟩ | ⟨rfl, hn⟩
      · rw [Draft.placed, hentries] at he'
        rcases mem_placed_replace hsize.symm he' with ⟨rfl, rfl⟩ | he''
        · exact .inl ⟨_, mem_placed_append_cons xs ys _, rfl⟩
        · exact .inl ⟨e', he'', rfl⟩
      · exact .inr ⟨hextent.symm, by rw [hdepth n hn]⟩

/-! ## Paths -/

/-- One step through the code, with the depth of the stack: behind an instruction, or where a jump
leads when it is taken. -/
inductive Flow (code : List (Nat × Instr)) : Nat × Int → Nat × Int → Prop
  | fall {pc : Nat} {depth δ : Int} {i : Instr} :
    (pc, i) ∈ code → i.op.isTerminator = false → i.op.stackEffect i.operand = some δ →
    Flow code (pc, depth) (pc + codec.size i, depth + δ)
  | taken {pc target : Nat} {depth δ : Int} {i : Instr} {relative : Int16} :
    (pc, i) ∈ code → i.op.jumpTakenStackEffect = some δ → i.operand = .offset relative →
    Leads pc relative target → Flow code (pc, depth) (target, depth + δ)

abbrev Reaches (code : List (Nat × Instr)) : Nat × Int → Nat × Int → Prop :=
  Relation.ReflTransGen (Flow code)

namespace Draft

variable {d : Draft Pos}

theorem mem_code {pc : Nat} {i : Instr} (h : (pc, i) ∈ d.code) :
    ∃ e, (pc, e) ∈ d.placed ∧ e.instr = i := by
  obtain ⟨⟨_, e⟩, he, heq⟩ := mem_map.mp h
  obtain ⟨rfl, rfl⟩ := Prod.mk.inj heq
  exact ⟨e, he, rfl⟩

section

variable (h : d.Exact) (hd : d.Valid) (hpatched : ∀ l, l < d.labels.length → l ∈ d.patches.map fst)

include h hd hpatched

/-- A step goes from the depth of one position to the depth of another. -/
theorem Exact.flow {x y : Nat × Int} (hflow : Flow d.code x y)
    (hx : ∃ n, d.DepthAt x.1 n ∧ x.2 = n.toNat) : ∃ n, d.DepthAt y.1 n ∧ y.2 = n.toNat := by
  obtain ⟨n, hat, hn⟩ := hx
  cases hflow with
  | fall hi hop hδ =>
    obtain ⟨e, he, rfl⟩ := mem_code hi
    obtain ⟨δ', n', hδ', hn', hat'⟩ := h.falls _ e he hop
    obtain rfl := mem_unique hδ hδ'
    refine ⟨n', hat', ?_⟩
    rw [hn', hat.eq he, ← hn]
  | @taken pc target depth δ i relative hi hδ hoperand hleads =>
    obtain ⟨e, he, rfl⟩ := mem_code hi
    -- two offsets that are the same lead to the same place, and what the jump takes is known
    have hsame : ∀ {r t}, e.instr.operand = .offset r → Leads pc r t → t = target := by
      intro r t hr ht
      obtain rfl : relative = r := by simpa using hoperand.symm.trans hr
      rw [Leads] at hleads ht
      omega
    have htaken : ∀ {taken}, Jumps e.depth e.instr.op taken → d.DepthAt target taken →
        ∃ n, d.DepthAt target n ∧ depth + δ = n.toNat := by
      rintro taken ⟨δ', hδ', htaken⟩ hat'
      obtain rfl := mem_unique hδ hδ'
      exact ⟨taken, hat', by rw [htaken, hat.eq he, ← hn]⟩
    have hr := hd.resolved pc e he
    rw [Resolved] at hr
    cases hm : e.meaning with
    | plain operand =>
      rw [hm] at hr
      exact absurd (hr.1.symm.trans hoperand) (hr.2 relative)
    | backward t =>
      rw [hm] at hr
      obtain ⟨r, hr, ht, -⟩ := hr
      obtain ⟨taken, hjumps, hat'⟩ := h.backward pc e t he hm
      exact htaken hjumps (hsame hr ht ▸ hat')
    | forward l =>
      rw [hm] at hr
      obtain ⟨label, r, hl, rfl, hr, ht⟩ := hr
      cases hlookup : d.patches.lookup l with
      | none =>
        obtain ⟨⟨_, t⟩, hmem, rfl⟩ := mem_map.mp (hpatched l (List.getElem?_eq_some_iff.mp hl).1)
        exact absurd (lookup_eq_none_iff.mp hlookup _ hmem) (by simp)
      | some t =>
        have hat' := h.patch l t label (mem_patches_of_lookup hlookup) hl
        exact htaken (h.label l label e hl he) (hsame hr (ht t hlookup) ▸ hat')

theorem Exact.reaches {x y : Nat × Int} (hreach : Reaches d.code x y)
    (hx : ∃ n, d.DepthAt x.1 n ∧ x.2 = n.toNat) : ∃ n, d.DepthAt y.1 n ∧ y.2 = n.toNat := by
  induction hreach with
  | refl => exact hx
  | tail _ hstep ih => exact h.flow hd hpatched hstep ih

end

end Draft

/-! ## Release builds -/

section

open CodeBuilder

theorem implements_calculateJumpOffset (origin : JumpLabelInner Pos) (target : JumpTargetInner) :
    Implements (calculateJumpOffset false origin target : BuilderM Pos Const _)
      (calculateJumpOffset true origin target) := by
  exact .assert

theorem implements_patchJump (label : JumpLabel Pos) :
    Implements (patchJump false label : BuilderM Pos Const Unit) (patchJump true label) := by
  cases label with
  | none => exact .refl _
  | some label =>
    exact .rest fun _ => .rest fun _ =>
      (implements_calculateJumpOffset _ _).bind fun _ => .refl _

theorem implements_registerLocalNames (names : List Nat) :
    Implements (registerLocalNames false names : BuilderM Pos Const Unit)
      (registerLocalNames true names) :=
  (Implements.refl get).bind fun _ => .assert

variable [Inhabited Pos] {op : Opcode} {operand : Operand}

theorem implements_adjustStack (delta : Int) :
    Implements (adjustStack false delta : BuilderM Pos Const Unit) (adjustStack true delta) := by
  refine (Implements.refl get).bind fun b => ?_
  cases b.currentStackDepth with
  | none => exact .refl _
  | some depth => exact .assert

theorem implements_emitWithOperand :
    Implements (emitWithOperand false op operand : BuilderM Pos Const Unit)
      (emitWithOperand true op operand) := by
  refine (Implements.refl get).bind fun b => ?_
  cases b.currentStackDepth with
  | none => exact .refl _
  | some depth =>
    refine .rest fun _ => .rest fun _ =>
      .rest fun _ => Implements.bind ?_ fun _ => .refl _
    rw [applyEffect, applyEffect]
    cases op.stackEffect operand with
    | none => exact .refl _
    | some delta => exact implements_adjustStack delta

theorem implements_emitJump :
    Implements (emitJump false op : BuilderM Pos Const _) (emitJump true op) := by
  refine (Implements.refl get).bind fun b => ?_
  cases b.currentStackDepth with
  | none => exact .refl _
  | some depth =>
    exact .rest fun _ => implements_emitWithOperand.bind fun _ => .refl _

theorem implements_emitJumpTo (target : JumpTarget) :
    Implements (emitJumpTo false op target : BuilderM Pos Const Unit)
      (emitJumpTo true op target) := by
  refine (Implements.refl get).bind fun b => ?_
  cases b.currentStackDepth with
  | none => exact .refl _
  | some depth =>
    refine .rest fun taken => ?_
    cases target with
    | none => exact .refl _
    | some target =>
      refine .rest fun b =>
        (implements_calculateJumpOffset _ _).bind fun relative => ?_
      cases relative with
      | none => exact .refl _
      | some relative => exact implements_emitWithOperand

theorem implements_emit (e : Emit) :
    Implements (e.run false : BuilderM Pos Const Unit) (e.run true) := by
  refine (Implements.refl get).bind fun b => ?_
  split
  · exact .refl _
  · exact implements_emitWithOperand

theorem implements_call (c : Call Pos Const) : Implements (call false c) (call true c) := by
  cases c with
  | emit e => exact .rest fun _ => (implements_emit e).zoom
  | emitJump op =>
    exact .rest fun _ => .rest fun _ =>
      implements_emitJump.zoom.bind fun _ => .refl _
  | patchJump l =>
    refine (Implements.refl get).bind fun s => ?_
    cases s.labels[l]? with
    | none => exact .refl _
    | some label => exact (implements_patchJump label).zoom.bind fun _ => .refl _
  | emitJumpTo op i =>
    refine (Implements.refl get).bind fun s => ?_
    cases s.targets[i]? with
    | none => exact .refl _
    | some target => exact .rest fun _ => (implements_emitJumpTo target).zoom
  | registerLocalNames names => exact (implements_registerLocalNames names).zoom
  | _ => exact .refl _

/-- **A release build does what a debug build does** where its assertions hold. -/
theorem implements_calls (cs : List (Call Pos Const)) :
    Implements (calls false cs) (calls true cs) := by
  induction cs with
  | nil => exact .refl _
  | cons c cs ih => exact (implements_call c).bind fun _ => ih

end

/-! ## The tracked depth is the depth on every path -/

theorem Draft.exact_empty : ({} : Draft Pos).Exact := by
  constructor <;> simp [placed, Assembly.placed]

theorem Drafts.depthAt_zero {s : Session Pos Const} {d : Draft Pos} (h : Drafts s d)
    {first : Emission} (hfirst : s.log.head? = some first) : d.DepthAt 0 first.depth := by
  rw [h.log] at hfirst
  cases hentries : d.entries with
  | nil =>
    rw [hentries] at hfirst
    cases hfirst
  | cons e es =>
    rw [hentries] at hfirst
    obtain rfl : e.emission = first := Option.some.inj hfirst
    refine .inl ⟨e, ?_, rfl⟩
    rw [Draft.placed, hentries]
    exact mem_cons_self

/-- **The depth the builder tracked is the depth on every path.** If all calls succeed in a debug
build, so that depths agree where paths meet and none is negative, and every label is patched: a
release build makes the same code, and a path from the start of the code, where the depth is the one
of the first instruction, comes to each instruction with the depth the builder tracked when it
emitted it. No path leaves the code, and the depth stays within `0` and `u16::MAX`. -/
theorem depth_of_reaches [Inhabited Pos] {cs : List (Call Pos Const)} {s : Session Pos Const}
    (h : calls true cs {} = .ok ⟨⟩ s)
    (hpatched : ∀ l, l < s.labels.length → l ∈ s.patches.map fst) :
    calls false cs {} = .ok ⟨⟩ s ∧
    ∃ code, decoded s.builder.build.bytecode = some code ∧ ∀ first, s.log.head? = some first →
      ∀ pc depth, Reaches code (0, first.depth.toNat) (pc, depth) →
        Boundary codec.size (code.map snd) pc ∧ 0 ≤ depth ∧ depth < 2 ^ 16 ∧
        ∀ (k : Nat) i, code[k]? = some (pc, i) →
          ∃ e : Emission, s.log[k]? = some e ∧ depth = e.depth.toNat := by
  obtain ⟨d, hdrafts, hd, hexact⟩ := exists_draft (fun _ _ hmove => hmove.exact) exact_empty h
  refine ⟨implements_calls cs _ _ _ h, d.code, hdrafts.decoded hd, ?_⟩
  intro first hfirst pc depth hreach
  rw [hdrafts.labels, hdrafts.patches] at hpatched
  obtain ⟨n, hat, hn⟩ := hexact.reaches hd hpatched hreach ⟨_, hdrafts.depthAt_zero hfirst, rfl⟩
  have hlt := n.toNat_lt
  dsimp only at hat hn
  refine ⟨boundary_code hat.boundary, ?_, ?_, fun k i hk => ?_⟩
  · rw [hn]
    omega
  · rw [hn]
    omega
  rw [code, List.getElem?_map, Option.map_eq_some_iff] at hk
  obtain ⟨⟨_, e⟩, hk, heq⟩ := hk
  obtain ⟨rfl, -⟩ := Prod.mk.inj heq
  refine ⟨e.emission, by rw [hdrafts.log_eq, List.getElem?_map, hk]; rfl, ?_⟩
  rw [hn, ← hat.eq (mem_of_getElem? hk)]
  rfl

theorem depth_of_reaches_loop : ∃ s : Session Unit Unit, calls true loopCalls {} = .ok ⟨⟩ s ∧
    (∀ l, l < s.labels.length → l ∈ s.patches.map fst) ∧
    ∃ code, decoded s.builder.build.bytecode = some code ∧ ∀ first, s.log.head? = some first →
      ∀ pc depth, Reaches code (0, first.depth.toNat) (pc, depth) →
        Boundary codec.size (code.map snd) pc ∧ 0 ≤ depth ∧ depth < 2 ^ 16 ∧
        ∀ (k : Nat) i, code[k]? = some (pc, i) →
          ∃ e : Emission, s.log[k]? = some e ∧ depth = e.depth.toNat := by
  obtain ⟨s, h, hpatched⟩ : ∃ s : Session Unit Unit, calls true loopCalls {} = .ok ⟨⟩ s ∧
      ∀ l, l < s.labels.length → l ∈ s.patches.map fst := ⟨_, rfl, by decide⟩
  exact ⟨s, h, hpatched, (depth_of_reaches h hpatched).2⟩

/-- **A release build may track another depth.** Nothing jumps here, so there is no place where the
depths of two paths would differ; but an instruction pops from an empty stack, and the builder goes
on with depth zero. -/
theorem release_depth_ne : ∃ s : Session Unit Unit,
    calls false [.newCodeRegion 0, .emit (.emit .pop), .emit (.emit .loadNone)] {} = .ok ⟨⟩ s ∧
    ∃ code, decoded s.builder.build.bytecode = some code ∧ s.log.map Emission.depth = [0, 0] ∧
      code[1]? = some (1, ⟨.loadNone, .none⟩) ∧ Reaches code (0, 0) (1, -1) := by
  refine ⟨_, rfl, _, rfl, rfl, rfl, ?_⟩
  exact .single (.fall (i := ⟨.pop, .none⟩) (mem_cons_self) rfl rfl)

end Monty.Bytecode
