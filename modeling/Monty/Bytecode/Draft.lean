import Mathlib.Logic.Relation
import Monty.Bytecode.Builder

/-!
# Drafts

What a builder is building, as a list of instructions instead of bytes: each entry of a `Draft` is
an instruction, what the caller meant by it, and the depth of the stack when it was emitted. A
`Move` says what one call does to a draft; what holds of all drafts is derived from the moves.

* `Draft.Valid`: every jump goes to the place it was meant to go to, and an instruction begins
  there.
* `Draft.Exact`: the depth behind each instruction, and where a jump goes, is the depth before it
  changed by the effect of the instruction. Only a build with debug assertions makes sure of that.
-/

namespace Monty.Bytecode

open Assembly List

variable {Pos : Type}

/-! ## Drafts and moves -/

/-- An instruction as it is now: the operand of a forward jump changes when it is patched. -/
structure Entry where
  depth : UInt16
  meaning : Meaning
  instr : Instr

variable {e : Entry}

namespace Entry

abbrev size (e : Entry) : Nat := codec.size e.instr

/-- What was noted when the instruction was emitted. -/
def emission (e : Entry) : Emission := ⟨e.depth, e.instr.op, e.meaning⟩

/-- Another operand. -/
def withOffset (e : Entry) (relative : Int16) : Entry :=
  { e with instr := { e.instr with operand := .offset relative } }

theorem size_pos (e : Entry) : 0 < e.size := codec.size_pos e.instr

theorem size_withOffset {old : Int16} (h : e.instr.operand = .offset old)
    (relative : Int16) : (e.withOffset relative).size = e.size := by
  have hnew : codec.size (e.withOffset relative).instr = 3 := size_of_offset rfl
  rw [size, size, size_of_offset h, hnew]

end Entry

structure Draft (Pos : Type) where
  entries : List Entry := []
  depth : Option UInt16 := none
  labels : List (JumpLabel Pos) := []
  targets : List JumpTarget := []
  patches : List (Nat × Nat) := []

namespace Draft

/-- The entries with their positions. -/
abbrev placed (d : Draft Pos) : List (Nat × Entry) := Assembly.placed Entry.size 0 d.entries

/-- The position of the next instruction. -/
abbrev extent (d : Draft Pos) : Nat := Assembly.extent Entry.size d.entries

abbrev Boundary (d : Draft Pos) (pos : Nat) : Prop := Assembly.Boundary Entry.size d.entries pos

/-- The draft with another instruction, and labels for it. -/
def push (d : Draft Pos) (e : Entry) (depth : Option UInt16) (ls : List (JumpLabel Pos)) :
    Draft Pos :=
  { d with entries := d.entries ++ [e], depth, labels := d.labels ++ ls }

@[simp] theorem push_labels (d : Draft Pos) (e : Entry) (depth : Option UInt16)
    (ls : List (JumpLabel Pos)) : (d.push e depth ls).labels = d.labels ++ ls := rfl

end Draft

def Falls (debug : Bool) (depth : UInt16) (i : Instr) (depth' : Option UInt16) : Prop :=
  ∃ δ newDepth, i.op.stackEffect i.operand = some δ ∧
    (debug = true → (newDepth.toNat : Int) = depth.toNat + δ) ∧
    depth' = if i.op.isTerminator then none else some newDepth

def Jumps (depth : UInt16) (op : Opcode) (taken : UInt16) : Prop :=
  ∃ δ, op.jumpTakenStackEffect = some δ ∧ (taken.toNat : Int) = depth.toNat + δ

/-- An operand that leads from a position to another one. -/
def Leads (pos : Nat) (relative : Int16) (target : Nat) : Prop :=
  (pos : Int) + 3 + relative.toInt = target

/-- What a call does to a draft. -/
inductive Move (debug : Bool) : Draft Pos → Draft Pos → Prop
  | idle (d : Draft Pos) : Move debug d d
  | region {d : Draft Pos} (depth : UInt16) :
    d.depth = none → Move debug d { d with depth := some depth }
  | target (d : Draft Pos) :
    Move debug d { d with targets := d.targets ++ [d.depth.map fun n => ⟨d.extent, n⟩] }
  | plain {d : Draft Pos} {depth : UInt16} {i : Instr} {depth' : Option UInt16} :
    d.depth = some depth → codec.Encodable i → (∀ relative, i.operand ≠ .offset relative) →
    Falls debug depth i depth' → Move debug d (d.push ⟨depth, .plain i.operand, i⟩ depth' [])
  | forward {d : Draft Pos} {depth taken : UInt16} {op : Opcode} {depth' : Option UInt16}
      (position : Pos) :
    d.depth = some depth → codec.Encodable ⟨op, .offset 0⟩ → Jumps depth op taken →
    Falls debug depth ⟨op, .offset 0⟩ depth' →
    Move debug d (d.push ⟨depth, .forward d.labels.length, ⟨op, .offset 0⟩⟩ depth'
      [some ⟨d.extent, taken, position⟩])
  | backward {d : Draft Pos} {depth taken : UInt16} {op : Opcode} {depth' : Option UInt16}
      {target : JumpTargetInner} {relative : Int16} :
    d.depth = some depth → codec.Encodable ⟨op, .offset relative⟩ → Jumps depth op taken →
    Falls debug depth ⟨op, .offset relative⟩ depth' → some target ∈ d.targets →
    (debug = true → taken = target.stackDepth) → Leads d.extent relative target.offset →
    Move debug d (d.push ⟨depth, .backward target.offset, ⟨op, .offset relative⟩⟩ depth' [])
  | deadLabel (d : Draft Pos) : Move debug d { d with labels := d.labels ++ [none] }
  | deadPatch {d : Draft Pos} {l : Nat} :
    d.labels[l]? = some none → Move debug d { d with patches := (l, d.extent) :: d.patches }
  | patch {d : Draft Pos} {l : Nat} {label : JumpLabelInner Pos} {xs ys : List Entry} {e : Entry}
      {depth : UInt16} {relative : Int16} :
    d.labels[l]? = some (some label) → d.entries = xs ++ e :: ys →
    label.offset = Assembly.extent Entry.size xs → e.meaning = .forward l →
    (∀ n, d.depth = some n → n = depth) → (debug = true → label.stackDepth = depth) →
    Leads label.offset relative d.extent →
    Move debug d { d with
        entries := xs ++ e.withOffset relative :: ys
        depth := some depth
        patches := (l, d.extent) :: d.patches }

/-! ## Validity -/

namespace Draft

/-- The operand of an entry is what was meant; a forward jump that was patched leads to where it was
patched last. -/
def Resolved (d : Draft Pos) (pos : Nat) (e : Entry) : Prop :=
  match e.meaning with
  | .plain operand => e.instr.operand = operand ∧ ∀ relative, operand ≠ .offset relative
  | .forward l => ∃ label relative, d.labels[l]? = some (some label) ∧ label.offset = pos ∧
      e.instr.operand = .offset relative ∧ ∀ t, d.patches.lookup l = some t → Leads pos relative t
  | .backward t => ∃ relative, e.instr.operand = .offset relative ∧ Leads pos relative t ∧
      d.Boundary t

structure Valid (d : Draft Pos) : Prop where
  encodable : ∀ e ∈ d.entries, codec.Encodable e.instr
  resolved : ∀ pos e, (pos, e) ∈ d.placed → d.Resolved pos e
  label : ∀ l label, d.labels[l]? = some (some label) →
    ∃ e, (label.offset, e) ∈ d.placed ∧ e.meaning = .forward l
  target : ∀ t, some t ∈ d.targets → d.Boundary t.offset
  patch : ∀ l t, (l, t) ∈ d.patches → l < d.labels.length ∧ d.Boundary t

variable {d d' : Draft Pos} {debug : Bool}

theorem mem_patches_of_lookup {l t : Nat} (h : d.patches.lookup l = some t) :
    (l, t) ∈ d.patches := by
  obtain ⟨ps, qs, heq, -⟩ := lookup_eq_some_iff.mp h
  rw [heq]
  simp

theorem valid_empty : ({} : Draft Pos).Valid := by
  constructor <;> simp [placed, Assembly.placed]

/-- What an operand leads to stays so when the draft grows. -/
theorem Resolved.mono {pos : Nat} (h : d.Resolved pos e)
    (hlabels : ∀ (l : Nat) label, d.labels[l]? = some (some label) →
      d'.labels[l]? = some (some label))
    (hpatches : ∀ (l : Nat) label t, d.labels[l]? = some (some label) →
      d'.patches.lookup l = some t → d.patches.lookup l = some t)
    (hbound : ∀ t, d.Boundary t → d'.Boundary t) : d'.Resolved pos e := by
  rw [Resolved] at h ⊢
  cases hm : e.meaning with
  | plain operand => simpa only [hm] using h
  | forward l =>
    rw [hm] at h
    obtain ⟨label, relative, hlabel, hpos, hoperand, hleads⟩ := h
    exact ⟨label, relative, hlabels l label hlabel, hpos, hoperand, fun t ht =>
      hleads t (hpatches l label t hlabel ht)⟩
  | backward t =>
    rw [hm] at h
    obtain ⟨relative, hoperand, hleads, hb⟩ := h
    exact ⟨relative, hoperand, hleads, hbound t hb⟩

/-- The end of the draft is a boundary, so what is noted there is one. -/
theorem Valid.update (h : d.Valid) (hentries : d'.entries = d.entries) (hlabels : ∀ (l : Nat) label,
      d'.labels[l]? = some (some label) ↔ d.labels[l]? = some (some label))
    (hlength : d.labels.length ≤ d'.labels.length)
    (htargets : ∀ t, some t ∈ d'.targets → some t ∈ d.targets ∨ t.offset = d.extent)
    (hpatches : ∀ l t, (l, t) ∈ d'.patches →
      (l, t) ∈ d.patches ∨ (l < d'.labels.length ∧ t = d.extent))
    (hlookup : ∀ (l : Nat) label t, d.labels[l]? = some (some label) →
      d'.patches.lookup l = some t → d.patches.lookup l = some t) : d'.Valid where
  encodable := by
    rw [hentries]
    exact h.encodable
  resolved pos e he := by
    rw [placed, hentries] at he
    exact (h.resolved pos e he).mono (fun l label => (hlabels l label).mpr) hlookup fun t ht => by
      rwa [Boundary, hentries]
  label l label hl := by
    rw [placed, hentries]
    exact h.label l label ((hlabels l label).mp hl)
  target t ht := by
    rw [Boundary, hentries]
    rcases htargets t ht with ht | ht
    · exact h.target t ht
    · exact ht ▸ boundary_end
  patch l t ht := by
    rw [Boundary, hentries]
    rcases hpatches l t ht with ht | ⟨hl, rfl⟩
    · exact ⟨(h.patch l t ht).1.trans_le hlength, (h.patch l t ht).2⟩
    · exact ⟨hl, boundary_end⟩

/-- One more instruction, which comes with the labels that were added. -/
theorem Valid.push (h : d.Valid) {depth : Option UInt16} {ls : List (JumpLabel Pos)}
    (henc : codec.Encodable e.instr) (hnew : Resolved (d.push e depth ls) d.extent e)
    (hls : ∀ i label, ls[i]? = some (some label) →
      label.offset = d.extent ∧ e.meaning = .forward (d.labels.length + i)) :
    Valid (d.push e depth ls) := by
  have hplaced : Assembly.placed Entry.size 0 (d.entries ++ [e]) = d.placed ++ [(d.extent, e)] := by
    rw [placed_append, Nat.zero_add]
    rfl
  refine ⟨fun e' he' => ?_, fun pos e' he' => ?_, fun l label hl => ?_, fun t ht => ?_,
    fun l t ht => ?_⟩
  · rcases mem_append.mp he' with he' | he'
    · exact h.encodable e' he'
    · exact mem_singleton.mp he' ▸ henc
  · rw [placed, Draft.push, hplaced] at he'
    rcases mem_append.mp he' with he' | he'
    · refine (h.resolved pos e' he').mono (fun l label hl => ?_) (fun l label t _ ht => ht)
        fun t ht => ht.append _
      exact (List.getElem?_append_left (List.getElem?_eq_some_iff.mp hl).1).trans hl
    · obtain ⟨rfl, rfl⟩ := Prod.mk.inj (mem_singleton.mp he')
      exact hnew
  · rw [placed, Draft.push, hplaced]
    by_cases hlt : l < d.labels.length
    · obtain ⟨e', he', hm⟩ := h.label l label ((getElem?_append_left hlt).symm.trans hl)
      exact ⟨e', mem_append_left _ he', hm⟩
    · rw [push_labels, getElem?_append_right (not_lt.mp hlt)] at hl
      obtain ⟨hoffset, hm⟩ := hls _ label hl
      refine ⟨e, mem_append_right _ (by rw [hoffset]; simp), ?_⟩
      rw [hm, Nat.add_sub_cancel' (not_lt.mp hlt)]
  · exact (h.target t ht).append _
  · refine ⟨(h.patch l t ht).1.trans_le ?_, (h.patch l t ht).2.append _⟩
    rw [push_labels, length_append]
    exact Nat.le_add_right _ _

theorem Valid.operand_of_forward (h : d.Valid) {pos l : Nat} (he : (pos, e) ∈ d.placed)
    (hm : e.meaning = .forward l) : ∃ label old, d.labels[l]? = some (some label) ∧
      label.offset = pos ∧ e.instr.operand = .offset old := by
  have hr := h.resolved pos e he
  rw [Resolved, hm] at hr
  obtain ⟨label, old, hlabel, hpos, hoperand, -⟩ := hr
  exact ⟨label, old, hlabel, hpos, hoperand⟩

/-- **Patching a jump keeps the draft valid**: no other entry is meant by the label. -/
theorem Valid.patched (h : d.Valid) {l : Nat} {label : JumpLabelInner Pos} {xs ys : List Entry}
    {depth : UInt16} {relative : Int16} (hl : d.labels[l]? = some (some label))
    (hentries : d.entries = xs ++ e :: ys) (hoffset : label.offset = Assembly.extent Entry.size xs)
    (hm : e.meaning = .forward l) (hleads : Leads label.offset relative d.extent) :
    Valid { d with
      entries := xs ++ e.withOffset relative :: ys
      depth := some depth
      patches := (l, d.extent) :: d.patches } := by
  have he : (label.offset, e) ∈ d.placed := by
    rw [placed, hentries, hoffset]
    exact mem_placed_zero xs ys e
  obtain ⟨-, old, -, -, hoperand⟩ := h.operand_of_forward he hm
  have hsize : (e.withOffset relative).size = e.size := Entry.size_withOffset hoperand relative
  have hbound : ∀ {t}, d.Boundary t →
      Assembly.Boundary Entry.size (xs ++ e.withOffset relative :: ys) t := fun hb => by
    rw [Boundary, hentries] at hb
    exact hb.replace hsize
  -- an entry of the new draft is the patched one or an old one at another place
  have hmem : ∀ {pos e'}, (pos, e') ∈ Assembly.placed Entry.size 0
      (xs ++ e.withOffset relative :: ys) → (pos = label.offset ∧ e' = e.withOffset relative) ∨
        (pos ≠ label.offset ∧ (pos, e') ∈ d.placed) := by
    intro pos e' he'
    by_cases hpos : pos = label.offset
    · refine .inl ⟨hpos, placed_unique Entry.size_pos he' ?_⟩
      rw [hpos, hoffset]
      exact mem_placed_zero xs ys (e.withOffset relative)
    · rcases mem_placed_replace hsize he' with ⟨rfl, -⟩ | he'
      · exact absurd (by rw [hoffset, Nat.zero_add]) hpos
      · exact .inr ⟨hpos, by rw [placed, hentries]; exact he'⟩
  refine ⟨fun e' he' => ?_, fun pos e' he' => ?_, fun l' label' hl' => ?_, fun t ht => ?_,
    fun l' t ht => ?_⟩
  · rcases mem_append.mp he' with he' | he'
    · exact h.encodable e' (by rw [hentries]; exact mem_append_left _ he')
    · rcases mem_cons.mp he' with rfl | he'
      · have henc := h.encodable e (by rw [hentries]; simp)
        exact ⟨henc.1.trans (by rw [hoperand]; rfl), Nat.zero_le _⟩
      · exact h.encodable e' (by rw [hentries]; simp [he'])
  · rcases hmem he' with ⟨rfl, rfl⟩ | ⟨hne, he'⟩
    · rw [Resolved, Entry.withOffset]
      simp only [hm]
      refine ⟨label, relative, hl, rfl, rfl, fun t ht => ?_⟩
      rw [lookup_cons_self] at ht
      exact Option.some.inj ht ▸ hleads
    have hr := h.resolved pos e' he'
    rw [Resolved] at hr ⊢
    cases hm' : e'.meaning with
    | plain operand => simpa only [hm'] using hr
    | backward t =>
      rw [hm'] at hr
      obtain ⟨r, hop, hle, hb⟩ := hr
      exact ⟨r, hop, hle, hbound hb⟩
    | forward l' =>
      rw [hm'] at hr
      obtain ⟨label', r, hl', hpos, hop, hle⟩ := hr
      -- the labels differ, since they stand for different places
      have hne' : (l' == l) = false := by
        refine beq_eq_false_iff_ne.mpr fun heq => hne ?_
        rw [heq, hl] at hl'
        rw [← hpos, ← Option.some.inj (Option.some.inj hl')]
      refine ⟨label', r, hl', hpos, hop, fun t ht => hle t ?_⟩
      rw [lookup_cons, hne'] at ht
      exact ht
  · obtain ⟨e', he', hm'⟩ := h.label l' label' hl'
    rw [placed, hentries] at he'
    rcases mem_placed_replace hsize.symm he' with ⟨hpos, rfl⟩ | he''
    · refine ⟨e'.withOffset relative, ?_, hm'⟩
      rw [hpos]
      exact mem_placed_append_cons xs ys _
    · exact ⟨e', he'', hm'⟩
  · exact hbound (h.target t ht)
  · rcases mem_cons.mp ht with heq | ht
    · obtain ⟨rfl, rfl⟩ := Prod.mk.inj heq
      exact ⟨(List.getElem?_eq_some_iff.mp hl).1, hbound boundary_end⟩
    · exact ⟨(h.patch l' t ht).1, hbound (h.patch l' t ht).2⟩

end Draft

open Draft in
/-- **Every move keeps drafts valid.** -/
theorem Move.valid {debug : Bool} {d d' : Draft Pos} (hmove : Move debug d d') (h : d.Valid) :
    d'.Valid := by
  cases hmove with
  | idle => exact h
  | region depth hdead =>
    exact h.update rfl (fun _ _ => .rfl) le_rfl (fun t ht => .inl ht) (fun l t ht => .inl ht)
      fun _ _ _ _ ht => ht
  | target =>
    refine h.update rfl (fun _ _ => .rfl) le_rfl (fun t ht => ?_) (fun l t ht => .inl ht)
      fun _ _ _ _ ht => ht
    rcases mem_append.mp ht with ht | ht
    · exact .inl ht
    · obtain ⟨n, -, rfl⟩ := Option.map_eq_some_iff.mp (mem_singleton.mp ht).symm
      exact .inr rfl
  | deadLabel =>
    refine h.update rfl (fun l label => ⟨fun hl => ?_, fun hl => ?_⟩) (by simp)
      (fun t ht => .inl ht)
      (fun l t ht => .inl ht) fun _ _ _ _ ht => ht
    · rw [getElem?_append] at hl
      split at hl
      · exact hl
      · simp [getElem?_singleton] at hl
    · exact (List.getElem?_append_left (List.getElem?_eq_some_iff.mp hl).1).trans hl
  | @deadPatch l hl =>
    refine h.update rfl (fun _ _ => .rfl) le_rfl (fun t ht => .inl ht) (fun l' t ht => ?_)
      fun l' label t hl' ht => ?_
    · rcases mem_cons.mp ht with heq | ht
      · obtain ⟨rfl, rfl⟩ := Prod.mk.inj heq
        exact .inr ⟨(List.getElem?_eq_some_iff.mp hl).1, rfl⟩
      · exact .inl ht
    have hne : (l' == l) = false := by
      refine beq_eq_false_iff_ne.mpr fun heq => ?_
      rw [heq, hl] at hl'
      cases hl'
    rw [lookup_cons, hne] at ht
    exact ht
  | @plain depth i depth' hdepth henc hoperand hfalls =>
    exact h.push henc ⟨rfl, hoperand⟩ fun i label hl => by simp at hl
  | @forward depth taken op depth' position hdepth henc hjumps hfalls =>
    refine h.push henc ?_ fun i label hl => ?_
    · refine ⟨⟨d.extent, taken, position⟩, 0, by simp, rfl, rfl, fun t ht => ?_⟩
      -- no label that did not exist was patched
      exact absurd (h.patch _ t (mem_patches_of_lookup ht)).1 (lt_irrefl _)
    · obtain ⟨rfl, rfl⟩ : i = 0 ∧ label = ⟨d.extent, taken, position⟩ := by
        simpa [getElem?_singleton, eq_comm] using hl
      exact ⟨rfl, rfl⟩
  | @backward depth taken op depth' target relative hdepth henc hjumps hfalls htarget
    hdebug hleads =>
    exact h.push henc ⟨relative, rfl, hleads, (h.target _ htarget).append _⟩ fun i label hl => by
      simp at hl
  | patch hl hentries hoffset hm hdepth hdebug hleads =>
    exact h.patched hl hentries hoffset hm hleads

end Monty.Bytecode
