import Mathlib.Data.List.Forall2
import Monty.Bytecode.Drafting

/-!
# The layout of built code

The bytes of a builder, read from the start, are the instructions that were emitted in live code,
and every jump goes to where its caller wanted it to go (`decoded_build`).
-/

namespace Monty.Bytecode

open Fallible Assembly List Draft
open Prod hiding map_map

variable {Pos Const : Type} {s : Session Pos Const} {d : Draft Pos}

/-- An instruction at a position is what was meant by an emission. For a jump, the offset counts
from behind the instruction, and an instruction of the code begins where it leads to, or the code
ends there. -/
def Means (s : Session Pos Const) (code : List (Nat × Instr)) (e : Emission) (p : Nat × Instr) :
    Prop :=
  p.2.op = e.op ∧
  match e.meaning with
  | .plain operand => p.2.operand = operand
  | .forward l => ∃ relative t, p.2.operand = .offset relative ∧ (l, t) ∈ s.patches ∧
      Leads p.1 relative t ∧ Boundary codec.size (code.map Prod.snd) t
  | .backward t => ∃ relative, p.2.operand = .offset relative ∧ Leads p.1 relative t ∧
      Boundary codec.size (code.map Prod.snd) t

/-- The instructions of a draft with their positions. -/
def Draft.code (d : Draft Pos) : List (Nat × Instr) := d.placed.map fun p => (p.1, p.2.instr)

theorem Draft.code_eq (d : Draft Pos) :
    d.code = Assembly.placed codec.size 0 (d.entries.map Entry.instr) :=
  (placed_map fun _ => rfl).symm

/-- **The bytes are read back** as the instructions of the draft. -/
theorem Drafts.decoded (h : Drafts s d) (hd : d.Valid) :
    decoded s.builder.bytecode = some d.code := by
  rw [Bytecode.decoded, h.bytecode, code_eq]
  refine codec.disassemble_assemble (fun i hi => ?_) le_rfl 0
  obtain ⟨e, he, rfl⟩ := mem_map.mp hi
  exact hd.encodable e he

theorem Draft.boundary_code {t : Nat} (h : d.Boundary t) :
    Assembly.Boundary codec.size (d.code.map snd) t := by
  rw [code_eq, map_snd_placed]
  rcases h with ⟨e, he⟩ | rfl
  · refine .inl ⟨e.instr, ?_⟩
    rw [← code_eq]
    exact mem_map_of_mem he
  · refine .inr ?_
    rw [Assembly.extent, Assembly.extent, map_map]
    rfl

theorem Drafts.log_eq (h : Drafts s d) : s.log = d.placed.map fun p => p.2.emission := by
  have hentries : d.placed.map snd = d.entries := map_snd_placed
  rw [h.log, ← hentries, map_map]
  rfl

theorem Drafts.means (h : Drafts s d) (hd : d.Valid) {pos : Nat} {e : Entry}
    (he : (pos, e) ∈ d.placed) (hpatched : ∀ l, l < s.labels.length → l ∈ s.patches.map fst) :
    Means s d.code e.emission (pos, e.instr) := by
  refine ⟨rfl, ?_⟩
  have hr := hd.resolved pos e he
  rw [Draft.Resolved] at hr
  change match e.meaning with
    | .plain operand => e.instr.operand = operand
    | .forward l => _
    | .backward t => _
  cases hm : e.meaning with
  | plain operand =>
    rw [hm] at hr
    exact hr.1
  | backward t =>
    rw [hm] at hr
    obtain ⟨relative, hoperand, hleads, hb⟩ := hr
    exact ⟨relative, hoperand, hleads, boundary_code hb⟩
  | forward l =>
    rw [hm] at hr
    obtain ⟨label, relative, hl, -, hoperand, hleads⟩ := hr
    rw [h.labels, h.patches] at hpatched
    cases hlookup : d.patches.lookup l with
    | none =>
      obtain ⟨⟨_, t⟩, ht, rfl⟩ := List.mem_map.mp (hpatched l (List.getElem?_eq_some_iff.mp hl).1)
      simpa using lookup_eq_none_iff.mp hlookup _ ht
    | some t =>
      have ht := mem_patches_of_lookup hlookup
      exact ⟨relative, t, hoperand, h.patches ▸ ht, hleads t hlookup,
        boundary_code (hd.patch l t ht).2⟩

/-- What a successful session has built. -/
theorem Session.exists_draft [Inhabited Pos] {debug : Bool} {P : Draft Pos → Prop}
    (hP : ∀ d d', Move debug d d' → d.Valid → P d → P d') (hempty : P {})
    {cs : List (Call Pos Const)} (h : calls debug cs {} = .ok ⟨⟩ s) :
    ∃ d, Drafts s d ∧ d.Valid ∧ P d := by
  have hcalls := ensures_calls hP cs (.empty : Drafts ({} : Session Pos Const) {})
    valid_empty hempty
  rw [Ensures, h] at hcalls
  exact hcalls

/-- **Built code is what was emitted.** However the calls of the builder follow each other, in a
debug or a release build: if all of them succeed and every label is patched once, the bytes of the
code are read as one instruction for each that was emitted in live code, and a jump leads to where
its label was patched, or to the target it was given, which is where an instruction begins or the
code ends. -/
theorem decoded_build [Inhabited Pos] {debug : Bool} {cs : List (Call Pos Const)}
    (h : Session.calls debug cs {} = .ok ⟨⟩ s)
    (hpatched : (s.patches.map Prod.fst).Perm (range s.labels.length)) :
    ∃ code, decoded s.builder.build.bytecode = some code ∧ Forall₂ (Means s code) s.log code := by
  obtain ⟨d, hdrafts, hd, -⟩ := Session.exists_draft (fun _ _ _ _ _ => trivial)
    trivial h
  refine ⟨d.code, hdrafts.decoded hd, ?_⟩
  rw [hdrafts.log_eq, Draft.code, forall₂_map_left_iff, forall₂_map_right_iff, forall₂_same]
  rintro ⟨pos, e⟩ he
  exact hdrafts.means hd he fun l hl => hpatched.mem_iff.mpr (mem_range.mpr hl)

/-- A loop with a way out; what follows the jump back is dead until the way out is patched. -/
def loopCalls : List (Call Unit Unit) :=
  [.newCodeRegion 0, .currentJumpTarget, .emit (.emit .loadTrue), .emitJump .jumpIfFalse,
    .emitJumpTo .jump 0, .emit (.emit .pop), .patchJump 0, .emit (.emit .loadNone),
    .emit (.emit .returnValue)]

theorem decoded_build_loop : ∃ s : Session Unit Unit, Session.calls true loopCalls {} = .ok ⟨⟩ s ∧
    (s.patches.map Prod.fst).Perm (range s.labels.length) ∧
    ∃ code, decoded s.builder.build.bytecode = some code ∧ Forall₂ (Means s code) s.log code := by
  obtain ⟨s, h, hpatched⟩ : ∃ s : Session Unit Unit, Session.calls true loopCalls {} = .ok ⟨⟩ s ∧
      (s.patches.map Prod.fst).Perm (range s.labels.length) := ⟨_, rfl, by decide⟩
  exact ⟨s, h, hpatched, decoded_build h hpatched⟩

end Monty.Bytecode
