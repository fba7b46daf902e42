import Mathlib.Tactic.TypeStar

/-!
# Opcodes

The instruction set, with the two tables that the builder and the virtual machine share: the shape
of each opcode's operand and its effect on the operand stack. An opcode's byte is its place in the
enumeration.
-/

namespace Monty.Bytecode

inductive Opcode
  | pop | dup | rot2 | rot3 | loadConst | loadNone | loadTrue | loadFalse | loadSmallInt
  | loadLocal0 | loadLocal1 | loadLocal2 | loadLocal3 | loadLocal | loadLocalW | storeLocal
  | storeLocalW | loadGlobal | storeGlobal | loadCell | storeCell | deleteLocal
  | loadGlobalCallable | binaryAdd | binarySub | binaryMul | binaryDiv | binaryFloorDiv
  | binaryMod | binaryPow | binaryAnd | binaryOr | binaryXor | binaryLShift | binaryRShift
  | binaryMatMul | compareEq | compareNe | compareLt | compareLe | compareGt | compareGe
  | compareIs | compareIsNot | compareIn | compareNotIn | unaryNot | unaryNeg | unaryPos
  | unaryInvert | inplaceAdd | inplaceSub | inplaceMul | inplaceDiv | inplaceFloorDiv
  | inplaceMod | inplacePow | inplaceAnd | inplaceOr | inplaceXor | inplaceLShift | inplaceRShift
  | buildList | buildTuple | buildDict | buildSet | formatValue | buildFString | buildSlice
  | listExtend | listToTuple | dictMerge | listAppend | setAdd | dictSetItem | binarySubscr
  | storeSubscr | loadAttr | loadAttrImport | storeAttr | callFunction | callBuiltinFunction
  | callBuiltinType | callFunctionKw | callAttr | callAttrKw | callFunctionExtended
  | callAttrExtended | jump | jumpIfTrue | jumpIfFalse | jumpIfTrueOrPop | jumpIfFalseOrPop
  | getIter | forIter | makeFunction | makeClosure | raise | reraise | clearException
  | checkExcMatch | returnValue | await | unpackSequence | unpackEx | nop | loadModule
  | loadSubmodule | dup2 | deleteGlobal | dictUpdate | setExtend | beforeWith | withExit
  | withExceptStart | liftToTop | raiseUnboundLocal | methodDictMerge | assert | assertFailed
  | buildCell | deleteCell | loadName | storeName | deleteName | matchShape | matchKeys
  | matchClass | matchAttr | sinkTop | raiseFrom
  deriving DecidableEq, Repr

/-- The opcodes in the order of their bytes. -/
def Opcode.all : List Opcode := [
  .pop, .dup, .rot2, .rot3, .loadConst, .loadNone, .loadTrue, .loadFalse, .loadSmallInt,
  .loadLocal0, .loadLocal1, .loadLocal2, .loadLocal3, .loadLocal, .loadLocalW, .storeLocal,
  .storeLocalW, .loadGlobal, .storeGlobal, .loadCell, .storeCell, .deleteLocal,
  .loadGlobalCallable, .binaryAdd, .binarySub, .binaryMul, .binaryDiv, .binaryFloorDiv,
  .binaryMod, .binaryPow, .binaryAnd, .binaryOr, .binaryXor, .binaryLShift, .binaryRShift,
  .binaryMatMul, .compareEq, .compareNe, .compareLt, .compareLe, .compareGt, .compareGe,
  .compareIs, .compareIsNot, .compareIn, .compareNotIn, .unaryNot, .unaryNeg, .unaryPos,
  .unaryInvert, .inplaceAdd, .inplaceSub, .inplaceMul, .inplaceDiv, .inplaceFloorDiv,
  .inplaceMod, .inplacePow, .inplaceAnd, .inplaceOr, .inplaceXor, .inplaceLShift, .inplaceRShift,
  .buildList, .buildTuple, .buildDict, .buildSet, .formatValue, .buildFString, .buildSlice,
  .listExtend, .listToTuple, .dictMerge, .listAppend, .setAdd, .dictSetItem, .binarySubscr,
  .storeSubscr, .loadAttr, .loadAttrImport, .storeAttr, .callFunction, .callBuiltinFunction,
  .callBuiltinType, .callFunctionKw, .callAttr, .callAttrKw, .callFunctionExtended,
  .callAttrExtended, .jump, .jumpIfTrue, .jumpIfFalse, .jumpIfTrueOrPop, .jumpIfFalseOrPop,
  .getIter, .forIter, .makeFunction, .makeClosure, .raise, .reraise, .clearException,
  .checkExcMatch, .returnValue, .await, .unpackSequence, .unpackEx, .nop, .loadModule,
  .loadSubmodule, .dup2, .deleteGlobal, .dictUpdate, .setExtend, .beforeWith, .withExit,
  .withExceptStart, .liftToTop, .raiseUnboundLocal, .methodDictMerge, .assert, .assertFailed,
  .buildCell, .deleteCell, .loadName, .storeName, .deleteName, .matchShape, .matchKeys,
  .matchClass, .matchAttr, .sinkTop, .raiseFrom]

def Opcode.toByte (op : Opcode) : UInt8 := UInt8.ofNat op.ctorIdx

def Opcode.ofByte (b : UInt8) : Option Opcode := all[b.toNat]?

theorem Opcode.ofByte_toByte (op : Opcode) : ofByte op.toByte = some op := by
  cases op <;> rfl

/-! ## Operands -/

/-- Byte layout of an operand in the stream. -/
inductive OperandShape
  | none | u8 | i8 | u16 | offset | u8U8 | u16U8 | u16U16 | u16U8U8 | callKw | callAttrKw | u16U16U8
  deriving DecidableEq, Repr

def Opcode.operandShape : Opcode → OperandShape
  | .pop | .dup | .dup2 | .rot2 | .rot3 | .loadNone | .loadTrue | .loadFalse | .loadLocal0
  | .loadLocal1 | .loadLocal2 | .loadLocal3 | .binaryAdd | .binarySub | .binaryMul | .binaryDiv
  | .binaryFloorDiv | .binaryMod | .binaryPow | .binaryAnd | .binaryOr | .binaryXor
  | .binaryLShift | .binaryRShift | .binaryMatMul | .compareEq | .compareNe | .compareLt
  | .compareLe | .compareGt | .compareGe | .compareIs | .compareIsNot | .compareIn
  | .compareNotIn | .unaryNot | .unaryNeg | .unaryPos | .unaryInvert | .inplaceAdd | .inplaceSub
  | .inplaceMul | .inplaceDiv | .inplaceFloorDiv | .inplaceMod | .inplacePow | .inplaceAnd
  | .inplaceOr | .inplaceXor | .inplaceLShift | .inplaceRShift | .buildSlice | .listExtend
  | .listToTuple | .binarySubscr | .storeSubscr | .getIter | .raise | .raiseFrom | .reraise
  | .clearException | .checkExcMatch | .returnValue | .await | .nop | .beforeWith | .withExit
  | .withExceptStart | .buildCell => .none
  | .loadLocal | .storeLocal | .deleteLocal | .formatValue | .listAppend | .setAdd | .dictSetItem
  | .callFunction | .callFunctionExtended | .unpackSequence | .dictUpdate | .setExtend
  | .liftToTop | .assert | .assertFailed | .matchKeys | .matchClass | .matchAttr | .sinkTop => .u8
  | .loadSmallInt => .i8
  | .loadModule | .loadConst | .loadLocalW | .storeLocalW | .loadGlobal | .storeGlobal
  | .loadCell | .storeCell | .deleteCell | .buildList | .buildTuple | .buildDict | .buildSet
  | .buildFString | .dictMerge | .loadAttr | .loadAttrImport | .storeAttr | .deleteGlobal
  | .raiseUnboundLocal | .methodDictMerge => .u16
  | .jump | .jumpIfTrue | .jumpIfFalse | .jumpIfTrueOrPop | .jumpIfFalseOrPop | .forIter => .offset
  | .callBuiltinFunction | .callBuiltinType | .unpackEx => .u8U8
  | .callAttr | .callAttrExtended | .makeFunction | .matchShape => .u16U8
  | .loadGlobalCallable | .loadSubmodule => .u16U16
  | .makeClosure => .u16U8U8
  | .loadName | .storeName | .deleteName => .u16U16U8
  | .callFunctionKw => .callKw
  | .callAttrKw => .callAttrKw

/-- An operand, to be paired with an opcode. -/
inductive Operand
  | none
  | u8 (b : UInt8)
  | i8 (b : Int8)
  | u16 (w : UInt16)
  /-- A jump, relative to the position after the operand. -/
  | offset (relative : Int16)
  | u8U8 (a b : UInt8)
  | u16U8 (w : UInt16) (b : UInt8)
  | u16U16 (w1 w2 : UInt16)
  | u16U16U8 (w1 w2 : UInt16) (b : UInt8)
  | u16U8U8 (w : UInt16) (b1 b2 : UInt8)
  | callKw (posCount : UInt8) (kwnameIds : List UInt16)
  | callAttrKw (attrNameId : UInt16) (posCount : UInt8) (kwnameIds : List UInt16)
  deriving DecidableEq

def Operand.shape : Operand → OperandShape
  | none => .none
  | u8 _ => .u8
  | i8 _ => .i8
  | u16 _ => .u16
  | offset _ => .offset
  | u8U8 .. => .u8U8
  | u16U8 .. => .u16U8
  | u16U16 .. => .u16U16
  | u16U16U8 .. => .u16U16U8
  | u16U8U8 .. => .u16U8U8
  | callKw .. => .callKw
  | callAttrKw .. => .callAttrKw

/-! ## Effects on the stack -/

/-- `FormatValue` flag: a format spec is on the stack. -/
def formatValueHasSpec : UInt8 := 0x04

/-- `Assert` flag: the assertion is a fused comparison. -/
def assertCmpFlag : UInt8 := 0x10

/-- `MatchKeys` mode: the rest of the mapping is captured. -/
def matchKeysRest : UInt8 := 1

namespace Opcode

/-- The effect of an opcode without operand. -/
def plainEffect : Opcode → Option Int
  | pop => some (-1)
  | dup => some 1
  | dup2 => some 2
  | rot2 | rot3 => some 0
  | loadNone | loadTrue | loadFalse | buildCell => some 1
  | loadLocal0 | loadLocal1 | loadLocal2 | loadLocal3 => some 1
  | binaryAdd | binarySub | binaryMul | binaryDiv | binaryFloorDiv | binaryMod | binaryPow
  | binaryAnd | binaryOr | binaryXor | binaryLShift | binaryRShift | binaryMatMul => some (-1)
  | compareEq | compareNe | compareLt | compareLe | compareGt | compareGe | compareIs | compareIsNot
  | compareIn | compareNotIn => some (-1)
  | unaryNot | unaryNeg | unaryPos | unaryInvert => some 0
  | inplaceAdd | inplaceSub | inplaceMul | inplaceDiv | inplaceFloorDiv | inplaceMod | inplacePow
  | inplaceAnd | inplaceOr | inplaceXor | inplaceLShift | inplaceRShift => some (-1)
  | buildSlice => some (-2)
  | listExtend => some (-1)
  | listToTuple => some 0
  | binarySubscr => some (-1)
  | storeSubscr => some (-3)
  | getIter | await => some 0
  | raise => some (-1)
  | raiseFrom => some (-2)
  | reraise | clearException | checkExcMatch => some 0
  | returnValue => some (-1)
  | nop => some 0
  | beforeWith => some 1
  | withExit => some 0
  | withExceptStart => some 1
  | _ => none

/-- The effect of an opcode with a `u8` operand. -/
def u8Effect (n : UInt8) : Opcode → Option Int
  | callFunction => some (-n.toNat)
  | callFunctionExtended => some (-(1 + (n &&& 1).toNat))
  | formatValue => some (if n &&& formatValueHasSpec ≠ 0 then -1 else 0)
  | unpackSequence => some (n.toNat - 1)
  | assert => some (if n &&& assertCmpFlag ≠ 0 then -2 else -1)
  | assertFailed => some (if n &&& assertCmpFlag ≠ 0 then -3 else -2)
  | loadLocal => some 1
  | storeLocal => some (-1)
  | deleteLocal => some 0
  | listAppend | setAdd => some (-1)
  | dictSetItem => some (-2)
  | dictUpdate | setExtend => some (-1)
  | liftToTop | sinkTop => some 0
  | matchKeys => some (if n = matchKeysRest then -1 else 2)
  | matchClass => some 1
  | matchAttr => some 2
  | _ => none

/-- The effect of an opcode with a `u16` operand. -/
def u16Effect (n : UInt16) : Opcode → Option Int
  | buildList | buildTuple | buildSet | buildFString => some (1 - n.toNat)
  | buildDict => some (1 - 2 * n.toNat)
  | loadConst | loadModule => some 1
  | loadLocalW | loadGlobal | loadCell => some 1
  | storeLocalW | storeGlobal | storeCell => some (-1)
  | deleteGlobal | deleteCell => some 0
  | loadAttr | loadAttrImport => some 0
  | storeAttr => some (-2)
  | dictMerge | methodDictMerge => some (-1)
  | raiseUnboundLocal => some 0
  | _ => none

def fallThroughEffect : Opcode → Option Int
  | jump => some 0
  | jumpIfTrue | jumpIfFalse | jumpIfTrueOrPop | jumpIfFalseOrPop => some (-1)
  | forIter => some 1
  | _ => none

def stackEffect (op : Opcode) (operand : Operand) : Option Int :=
  if op.operandShape ≠ operand.shape then none
  else
    match operand with
    | .none => op.plainEffect
    | .u8 n => op.u8Effect n
    | .i8 _ => if op = loadSmallInt then some 1 else none
    | .u16 n => op.u16Effect n
    | .offset _ => op.fallThroughEffect
    | .u8U8 a b =>
      match op with
      | unpackEx => some (a.toNat + b.toNat)
      | callBuiltinFunction | callBuiltinType => some (1 - b.toNat)
      | _ => none
    | .u16U8 _ b =>
      match op with
      | makeFunction => some (1 - b.toNat)
      | matchShape => some 1
      | callAttr => some (-b.toNat)
      | callAttrExtended => some (-(1 + (b &&& 1).toNat))
      | _ => none
    | .u16U16 _ _ =>
      match op with
      | loadGlobalCallable => some 1
      | loadSubmodule => some 0
      | _ => none
    | .u16U16U8 _ _ _ =>
      match op with
      | loadName => some 1
      | storeName => some (-1)
      | deleteName => some 0
      | _ => none
    | .u16U8U8 _ defaults cells =>
      if op = makeClosure then some (1 - defaults.toNat - cells.toNat) else none
    | .callKw posCount kwnameIds =>
      if op = callFunctionKw then some (-(posCount.toNat + kwnameIds.length)) else none
    | .callAttrKw _ posCount kwnameIds =>
      if op = callAttrKw then some (-(posCount.toNat + kwnameIds.length)) else none

def jumpTakenStackEffect : Opcode → Option Int
  | jump => some 0
  | jumpIfTrue | jumpIfFalse => some (-1)
  | jumpIfTrueOrPop | jumpIfFalseOrPop => some 0
  | forIter => some (-1)
  | _ => none

/-- The code behind the instruction is not reached from it. -/
def isTerminator : Opcode → Bool
  | returnValue | raise | reraise | raiseUnboundLocal | assertFailed | jump => true
  | _ => false

end Opcode

end Monty.Bytecode
