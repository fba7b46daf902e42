import Mathlib.Algebra.Group.Int.Defs
import Monty.Bytecode.Encoding
import Monty.Lib.Fallible

/-!
# The builder of bytecode

Instructions are emitted one after the other, forward jumps with a dummy offset that is patched once
their target is reached, backward jumps to a position that was noted before. The builder tracks the
depth of the operand stack; behind an instruction that does not fall through there is no depth, the
code is dead, and what is emitted there is dropped.

A `Session` is a caller together with its builder: the labels and targets it was given, which it
refers to by number, and for each instruction that was emitted while the code was live what it was
and how deep the stack was then. Debug assertions panic only in a debug build; `debug` says whether
it is one.
-/

namespace Monty.Bytecode

open Fallible

/-! ## The state of the builder -/

/-- Why building stops: a compile error at a position, or a panic. -/
inductive Failure (Pos : Type)
  | error (message : String) (position : Pos)
  | panicked

/-- Where the code from an offset on comes from. -/
structure LocationEntry (Pos : Type) where
  bytecodeOffset : Nat
  range : Pos
  focus : Option Pos

/-- What a handler is for. -/
inductive HandlerKind
  | consuming
  | cleanup

/-- The range of code that a handler guards. -/
structure ExceptionEntry where
  start : Nat
  finish : Nat
  handler : Nat
  stackDepth : UInt16
  exceptionStackCount : UInt16
  kind : HandlerKind

/-- The code so far. -/
structure CodeBuilder (Pos Const : Type) where
  bytecode : List UInt8 := []
  constants : List Const := []
  locationTable : List (LocationEntry Pos) := []
  exceptionTable : List ExceptionEntry := []
  currentLocation : Option Pos := none
  currentFocus : Option Pos := none
  /-- The depth of the operand stack before the next instruction, or none in dead code. -/
  currentStackDepth : Option UInt16 := none
  localNames : List (Option Nat) := []

/-- A compiled body. -/
structure Code (Pos Const : Type) where
  bytecode : List UInt8
  constants : List Const
  locationTable : List (LocationEntry Pos)
  exceptionTable : List ExceptionEntry
  localNames : List Nat

/-- A forward jump: where its opcode is and how deep the stack is when the jump is taken. There is
nothing to patch for one in dead code. -/
structure JumpLabelInner (Pos : Type) where
  offset : Nat
  stackDepth : UInt16
  sourcePosition : Pos

/-- None in dead code. -/
abbrev JumpLabel (Pos : Type) := Option (JumpLabelInner Pos)

/-- A position to jump back to, with the depth of the stack there; none in dead code. -/
structure JumpTargetInner where
  offset : Nat
  stackDepth : UInt16

/-- None in dead code. -/
abbrev JumpTarget := Option JumpTargetInner

variable {Pos Const : Type}

/-- What a method of the builder is. -/
abbrev BuilderM (Pos Const : Type) := EStateM (Failure Pos) (CodeBuilder Pos Const)

/-- `u16::try_from`. -/
def u16Of (x : Int) : Option UInt16 :=
  if 0 ≤ x ∧ x.toNat < 2 ^ 16 then some (UInt16.ofNat x.toNat) else none

/-- `i16::try_from`. -/
def i16Of (x : Int) : Option Int16 :=
  if -2 ^ 15 ≤ x ∧ x < 2 ^ 15 then some (Int16.ofInt x) else none

namespace CodeBuilder

/-! ## Errors -/

section

variable [Inhabited Pos] (b : CodeBuilder Pos Const)

/-- Where errors are reported. -/
def currentPosition : Pos := b.currentLocation.getD default

/-- A jump that is too long. -/
def jumpTooLargeAt (position : Pos) : Failure Pos :=
  .error "function too large: jump offset exceeds i16 range" position

/-- The same at the current position. -/
def jumpTooLarge : Failure Pos := jumpTooLargeAt b.currentPosition

/-- A name that does not fit its operand. -/
def nameIdTooLarge : Failure Pos := .error ("module has too many distinct names; " ++
    "the bytecode format supports up to 65536 interned strings") b.currentPosition

/-- Too many keyword arguments. -/
def kwCountTooLarge : Failure Pos :=
  .error "call has too many keyword arguments; maximum is 255 per call" b.currentPosition

/-- No room for a constant. -/
def constantPoolFull : Failure Pos :=
  .error "function has too many constants; maximum is 65536 per function" b.currentPosition

/-- An operand stack that is too deep. -/
def stackTooLarge : Failure Pos :=
  .error "function too large: required stack exceeds u16::MAX" b.currentPosition

/-- Code that is too long. -/
def bytecodeTooLarge : Failure Pos :=
  .error "function bytecode too large; maximum is 4294967296 bytes" b.currentPosition

end

/-! ## Emitting -/

/-- Opens a new region of code at a depth; only dead code may be left so. -/
def newCodeRegion (depth : UInt16) : BuilderM Pos Const Unit := do
  let b ← get
  match b.currentStackDepth with
  | some _ => throw .panicked
  | none => modify fun b => { b with currentStackDepth := some depth }

variable [Inhabited Pos]

/-- Records the current location if it is set. -/
def recordLocation : BuilderM Pos Const Unit := do
  let b ← get
  match b.currentLocation with
  | none => pure ()
  | some range =>
    if b.bytecode.length < 2 ^ 32 then
      modify fun b => { b with
        locationTable := b.locationTable ++ [⟨b.bytecode.length, range, b.currentFocus⟩] }
    else throw b.bytecodeTooLarge

/-- Appends bytes. -/
def push (bytes : List UInt8) : BuilderM Pos Const Unit :=
  modify fun b => { b with bytecode := b.bytecode ++ bytes }

/-- Appends the bytes of an operand. -/
def pushOperand (operand : Operand) : BuilderM Pos Const Unit := do
  let b ← get
  if operand.kwCount ≤ 255 then push operand.bytes else throw b.kwCountTooLarge

variable (debug : Bool)

/-- Changes the depth; it must not become negative, and is zero then. -/
def adjustStack (delta : Int) : BuilderM Pos Const Unit := do
  let b ← get
  match b.currentStackDepth with
  | none => pure ()
  | some depth =>
    if debug ∧ depth.toNat + delta < 0 then throw .panicked
    else
      match u16Of (max (depth.toNat + delta) 0) with
      | none => throw b.stackTooLarge
      | some newDepth => modify fun b => { b with currentStackDepth := some newDepth }

variable (op : Opcode)

/-- The effect of an instruction on the depth. -/
def applyEffect (operand : Operand) : BuilderM Pos Const Unit :=
  match op.stackEffect operand with
  | none => throw .panicked
  | some delta => adjustStack debug delta

/-- Enters dead code behind an instruction that does not fall through. -/
def endRegion : BuilderM Pos Const Unit :=
  if op.isTerminator then modify fun b => { b with currentStackDepth := none } else pure ()

/-- Emits an instruction, with its location and its effect on the stack; in dead code nothing. -/
def emitWithOperand (operand : Operand) : BuilderM Pos Const Unit := do
  let b ← get
  match b.currentStackDepth with
  | none => pure ()
  | some _ => do
    recordLocation
    push [op.toByte]
    pushOperand operand
    applyEffect debug op operand
    endRegion op

/-! ## Jumps -/

/-- The offset of a jump, relative to the position behind it, if it is in range; the depths at both
ends must agree. -/
def calculateJumpOffset (origin : JumpLabelInner Pos) (target : JumpTargetInner) :
    BuilderM Pos Const (Option Int16) :=
  if debug ∧ origin.stackDepth ≠ target.stackDepth then throw .panicked
  else pure (i16Of (target.offset - (origin.offset + 3)))

/-- The depth at the target of a jump. -/
def takenDepth (depth : UInt16) : BuilderM Pos Const UInt16 := do
  let b ← get
  match op.jumpTakenStackEffect with
  | none => throw .panicked
  | some delta =>
    match u16Of (depth.toNat + delta) with
    | none => throw b.stackTooLarge
    | some target => pure target

/-- Emits a forward jump, which is patched later. -/
def emitJump : BuilderM Pos Const (JumpLabel Pos) := do
  let b ← get
  match b.currentStackDepth with
  | none => pure none
  | some depth => do
    let target ← takenDepth op depth
    emitWithOperand debug op (.offset 0)
    pure (some ⟨b.bytecode.length, target, b.currentPosition⟩)

/-- The depth where a label is patched: the current one, or in dead code the one of the label. -/
def arrive (label : JumpLabelInner Pos) : BuilderM Pos Const UInt16 := do
  let b ← get
  match b.currentStackDepth with
  | some depth => pure depth
  | none => do
    newCodeRegion label.stackDepth
    pure label.stackDepth

/-- Overwrites a byte. -/
def setByte (i : Nat) (byte : UInt8) : BuilderM Pos Const Unit := do
  let b ← get
  if i < b.bytecode.length then modify fun b => { b with bytecode := b.bytecode.set i byte }
  else throw .panicked

/-- Overwrites the operand of a jump. -/
def patchOperand (offset : Nat) (relative : Int16) : BuilderM Pos Const Unit := do
  setByte (offset + 1) (UInt8.ofNat relative.toUInt16.toNat)
  setByte (offset + 2) (UInt8.ofNat (relative.toUInt16.toNat / 256))

/-- Patches a forward jump to go to the current position. -/
def patchJump : JumpLabel Pos → BuilderM Pos Const Unit
  | none => pure ()
  | some label => do
    let depth ← arrive label
    let b ← get
    match ← calculateJumpOffset debug label ⟨b.bytecode.length, depth⟩ with
    | none => throw (jumpTooLargeAt label.sourcePosition)
    | some relative => patchOperand label.offset relative

/-- Emits a jump to a known position, from the live code at a depth. -/
def emitJumpFrom (depth : UInt16) : JumpTarget → BuilderM Pos Const Unit
  | none => throw .panicked
  | some target => do
    let b ← get
    match ← calculateJumpOffset debug ⟨b.bytecode.length, depth, b.currentPosition⟩ target with
    | none => throw b.jumpTooLarge
    | some relative => emitWithOperand debug op (.offset relative)

/-- Emits a jump to a known position. -/
def emitJumpTo (target : JumpTarget) : BuilderM Pos Const Unit := do
  let b ← get
  match b.currentStackDepth with
  | none => pure ()
  | some depth => do
    let taken ← takenDepth op depth
    emitJumpFrom debug op taken target

/-- The current position, to jump back to. -/
def currentJumpTarget (b : CodeBuilder Pos Const) : JumpTarget :=
  b.currentStackDepth.map fun depth => ⟨b.bytecode.length, depth⟩

/-! ## The other tables -/

/-- Where the next instructions come from. -/
def setLocation (range : Pos) (focus : Option Pos) : BuilderM Pos Const Unit :=
  modify fun b => { b with currentLocation := some range, currentFocus := focus }

/-- The index of a new constant. -/
def addConst (value : Const) : BuilderM Pos Const UInt16 := do
  let b ← get
  match u16Of b.constants.length with
  | none => throw b.constantPoolFull
  | some i => do
    modify fun b => { b with constants := b.constants ++ [value] }
    pure i

/-- Adds a handler. -/
def addExceptionEntry (entry : ExceptionEntry) : BuilderM Pos Const Unit := do
  let b ← get
  if entry.start < 2 ^ 32 ∧ entry.finish < 2 ^ 32 ∧ entry.handler < 2 ^ 32 then
    modify fun b => { b with exceptionTable := b.exceptionTable ++ [entry] }
  else throw b.bytecodeTooLarge

/-- Registers the names of the first slots; no slot may have a name before. -/
def registerLocalNames (names : List Nat) : BuilderM Pos Const Unit := do
  let b ← get
  if debug ∧ b.localNames ≠ [] then throw .panicked
  else modify fun b => { b with localNames := b.localNames ++ names.map some }

/-- The name of a local variable. -/
def registerLocalName (slot : UInt16) (name : Nat) : BuilderM Pos Const Unit :=
  modify fun b =>
    let names := b.localNames ++ List.replicate (slot.toNat + 1 - b.localNames.length) none
    { b with
      localNames := if names[slot.toNat]? = some none then names.set slot.toNat
        (some name) else names }

/-- The finished code. -/
def build (b : CodeBuilder Pos Const) : Code Pos Const where
  bytecode := b.bytecode
  constants := b.constants
  locationTable := b.locationTable
  exceptionTable := b.exceptionTable
  localNames := b.localNames.map (·.getD 0)

end CodeBuilder

/-! ## Ways to emit -/

/-- A call that emits an instruction other than a jump. -/
inductive Emit
  | emit (op : Opcode)
  | emitU8 (op : Opcode) (b : UInt8)
  | emitI8 (op : Opcode) (b : Int8)
  | emitU8U8 (op : Opcode) (a b : UInt8)
  | emitU16 (op : Opcode) (w : UInt16)
  | emitU16U16 (op : Opcode) (w1 w2 : UInt16)
  | emitU16U8 (op : Opcode) (w : UInt16) (b : UInt8)
  | emitU16U8U8 (op : Opcode) (w : UInt16) (b1 b2 : UInt8)
  | emitCallBuiltinFunction (builtinId argCount : UInt8)
  | emitCallBuiltinType (typeId argCount : UInt8)
  | emitCallFunctionKw (posCount : UInt8) (kwnameIds : List UInt16)
  | emitCallAttrKw (attrNameId : UInt16) (posCount : UInt8) (kwnameIds : List UInt16)
  | emitRaiseUnboundLocal (nameId : Nat)
  | emitLoadLocal (slot : UInt16)
  | emitLoadGlobalCallable (slot : UInt16) (nameId : Nat)
  | emitNameOp (op : Opcode) (slot : UInt16) (nameId : Nat) (flags : UInt8)
  | emitStoreLocal (slot : UInt16)

namespace Emit

/-- Small slots have an opcode of their own. -/
def localInstr (narrow wide : Opcode) (slot : UInt16) : Instr :=
  if slot.toNat < 256 then ⟨narrow, .u8 (UInt8.ofNat slot.toNat)⟩ else ⟨wide, .u16 slot⟩

/-- The instruction that a call emits. -/
def instr : Emit → Instr
  | emit op => ⟨op, .none⟩
  | emitU8 op b => ⟨op, .u8 b⟩
  | emitI8 op b => ⟨op, .i8 b⟩
  | emitU8U8 op a b => ⟨op, .u8U8 a b⟩
  | emitU16 op w => ⟨op, .u16 w⟩
  | emitU16U16 op w1 w2 => ⟨op, .u16U16 w1 w2⟩
  | emitU16U8 op w b => ⟨op, .u16U8 w b⟩
  | emitU16U8U8 op w b1 b2 => ⟨op, .u16U8U8 w b1 b2⟩
  | emitCallBuiltinFunction builtinId argCount => ⟨.callBuiltinFunction, .u8U8 builtinId argCount⟩
  | emitCallBuiltinType typeId argCount => ⟨.callBuiltinType, .u8U8 typeId argCount⟩
  | emitCallFunctionKw posCount kwnameIds => ⟨.callFunctionKw, .callKw posCount kwnameIds⟩
  | emitCallAttrKw attrNameId posCount kwnameIds =>
    ⟨.callAttrKw, .callAttrKw attrNameId posCount kwnameIds⟩
  | emitRaiseUnboundLocal nameId => ⟨.raiseUnboundLocal, .u16 (UInt16.ofNat nameId)⟩
  | emitLoadLocal slot =>
    if slot = 0 then ⟨.loadLocal0, .none⟩
    else if slot = 1 then ⟨.loadLocal1, .none⟩
    else if slot = 2 then ⟨.loadLocal2, .none⟩
    else if slot = 3 then ⟨.loadLocal3, .none⟩
    else localInstr .loadLocal .loadLocalW slot
  | emitLoadGlobalCallable slot nameId => ⟨.loadGlobalCallable, .u16U16 slot (UInt16.ofNat nameId)⟩
  | emitNameOp op slot nameId flags => ⟨op, .u16U16U8 slot (UInt16.ofNat nameId) flags⟩
  | emitStoreLocal slot => localInstr .storeLocal .storeLocalW slot

/-- The name that has to fit into the operand. -/
def nameId : Emit → Option Nat
  | emitRaiseUnboundLocal nameId => some nameId
  | emitLoadGlobalCallable _ nameId => some nameId
  | emitNameOp _ _ nameId _ => some nameId
  | _ => none

/-- Carries the call out. -/
def run [Inhabited Pos] (debug : Bool) (e : Emit) : BuilderM Pos Const Unit := do
  let b ← get
  if e.nameId.any (2 ^ 16 ≤ ·) then throw b.nameIdTooLarge
  else CodeBuilder.emitWithOperand debug e.instr.op e.instr.operand

end Emit

/-! ## Sessions -/

/-- What a caller means by an emitted instruction: a jump by its label, or by its target. -/
inductive Meaning
  | plain (operand : Operand)
  | forward (label : Nat)
  | backward (offset : Nat)

/-- An instruction that was emitted while the code was live, and the depth of the stack then. -/
structure Emission where
  depth : UInt16
  op : Opcode
  meaning : Meaning

/-- A caller and its builder. -/
structure Session (Pos Const : Type) where
  builder : CodeBuilder Pos Const := {}
  labels : List (JumpLabel Pos) := []
  targets : List JumpTarget := []
  log : List Emission := []
  /-- Which labels were patched, and where, the last first. -/
  patches : List (Nat × Nat) := []

/-- What a caller does. -/
abbrev SessionM (Pos Const : Type) := EStateM (Failure Pos) (Session Pos Const)

/-- One call of the builder. -/
inductive Call (Pos Const : Type)
  | emit (e : Emit)
  | emitJump (op : Opcode)
  | patchJump (label : Nat)
  | currentJumpTarget
  | emitJumpTo (op : Opcode) (target : Nat)
  | newCodeRegion (depth : UInt16)
  | setLocation (range : Pos) (focus : Option Pos)
  | addConst (value : Const)
  | addExceptionEntry (entry : ExceptionEntry)
  | registerLocalNames (names : List Nat)
  | registerLocalName (slot : UInt16) (name : Nat)

namespace Session

/-- A method of the builder. -/
def onBuilder {β : Type} (x : BuilderM Pos Const β) : SessionM Pos Const β :=
  zoom Session.builder (fun builder s => { s with builder }) x

/-- Notes an instruction, if the code is live. -/
def note (op : Opcode) (meaning : Meaning) : SessionM Pos Const Unit :=
  modify fun s =>
    match s.builder.currentStackDepth with
    | none => s
    | some depth => { s with log := s.log ++ [⟨depth, op, meaning⟩] }

variable [Inhabited Pos] (debug : Bool)

/-- A jump forward, whose label is noted. -/
def emitJump (op : Opcode) : SessionM Pos Const Unit := do
  let s ← get
  note op (.forward s.labels.length)
  let label ← onBuilder (CodeBuilder.emitJump debug op)
  modify fun s => { s with labels := s.labels ++ [label] }

/-- The jump of this label goes here. -/
def patchJump (i : Nat) : SessionM Pos Const Unit := do
  let s ← get
  match s.labels[i]? with
  | none => throw .panicked
  | some label => do
    onBuilder (CodeBuilder.patchJump debug label)
    modify fun s => { s with patches := (i, s.builder.bytecode.length) :: s.patches }

/-- A jump back to a target. -/
def emitJumpTo (op : Opcode) (i : Nat) : SessionM Pos Const Unit := do
  let s ← get
  match s.targets[i]? with
  | none => throw .panicked
  | some target => do
    note op (.backward (target.elim 0 JumpTargetInner.offset))
    onBuilder (CodeBuilder.emitJumpTo debug op target)

/-- Makes a call. A label or a target that the caller was not given is none it can pass. -/
def call : Call Pos Const → SessionM Pos Const Unit
  | .emit e => do
    note e.instr.op (.plain e.instr.operand)
    onBuilder (e.run debug)
  | .emitJump op => emitJump debug op
  | .patchJump i => patchJump debug i
  | .currentJumpTarget =>
    modify fun s => { s with targets := s.targets ++ [s.builder.currentJumpTarget] }
  | .emitJumpTo op i => emitJumpTo debug op i
  | .newCodeRegion depth => onBuilder (CodeBuilder.newCodeRegion depth)
  | .setLocation range focus => onBuilder (CodeBuilder.setLocation range focus)
  | .addConst value => do
    let _ ← onBuilder (CodeBuilder.addConst value)
    pure ()
  | .addExceptionEntry entry => onBuilder (CodeBuilder.addExceptionEntry entry)
  | .registerLocalNames names => onBuilder (CodeBuilder.registerLocalNames debug names)
  | .registerLocalName slot name => onBuilder (CodeBuilder.registerLocalName slot name)

/-- Makes calls one after the other, while none fails. -/
def calls : List (Call Pos Const) → SessionM Pos Const Unit
  | [] => pure ()
  | c :: cs => do
    call debug c
    calls cs

end Session

end Monty.Bytecode
