import Monty.Bytecode.Op
import Monty.Lib.Assembly
import Monty.Lib.ByteStream

/-!
# The encoding of instructions

An instruction is the byte of its opcode, followed by the bytes of its operand in the shape that the
opcode has. The names of keyword arguments are counted by a byte, so an operand can be written down
only if there are not too many.
-/

namespace Monty.Bytecode

open ByteStream Assembly Operand

/-! ## Reading operands -/

/-- A `u16`, little-endian. -/
def u16Bytes (w : UInt16) : List UInt8 := leBytes 2 w.toNat

def Operand.bytes : Operand → List UInt8
  | none => []
  | u8 b => [b]
  | i8 b => [b.toUInt8]
  | u16 w => u16Bytes w
  | offset relative => u16Bytes relative.toUInt16
  | u8U8 a b => [a, b]
  | u16U8 w b => u16Bytes w ++ [b]
  | u16U16 w1 w2 => u16Bytes w1 ++ u16Bytes w2
  | u16U16U8 w1 w2 b => u16Bytes w1 ++ u16Bytes w2 ++ [b]
  | u16U8U8 w b1 b2 => u16Bytes w ++ [b1, b2]
  | callKw posCount kwnameIds =>
    [posCount, UInt8.ofNat kwnameIds.length] ++ kwnameIds.flatMap u16Bytes
  | callAttrKw attrNameId posCount kwnameIds =>
    u16Bytes attrNameId ++ [posCount, UInt8.ofNat kwnameIds.length] ++ kwnameIds.flatMap u16Bytes

/-- How many keyword arguments an operand names. -/
def Operand.kwCount : Operand → Nat
  | callKw _ kwnameIds => kwnameIds.length
  | callAttrKw _ _ kwnameIds => kwnameIds.length
  | _ => 0

def fetchU8 : List UInt8 → Option (UInt8 × List UInt8)
  | b :: rest => some (b, rest)
  | [] => none

def fetchU16 : List UInt8 → Option (UInt16 × List UInt8)
  | a :: b :: rest => some (UInt16.ofNat (leValue [a, b]), rest)
  | _ => none

/-- A number of `u16`s. -/
def fetchU16s : Nat → List UInt8 → Option (List UInt16 × List UInt8)
  | 0, code => some ([], code)
  | n + 1, code => do
    let (w, code) ← fetchU16 code
    let (ws, code) ← fetchU16s n code
    some (w :: ws, code)

def fetchOperand : OperandShape → List UInt8 → Option (Operand × List UInt8)
  | .none, code => some (.none, code)
  | .u8, code => do
    let (b, code) ← fetchU8 code
    some (.u8 b, code)
  | .i8, code => do
    let (b, code) ← fetchU8 code
    some (.i8 b.toInt8, code)
  | .u16, code => do
    let (w, code) ← fetchU16 code
    some (.u16 w, code)
  | .offset, code => do
    let (w, code) ← fetchU16 code
    some (.offset w.toInt16, code)
  | .u8U8, code => do
    let (a, code) ← fetchU8 code
    let (b, code) ← fetchU8 code
    some (.u8U8 a b, code)
  | .u16U8, code => do
    let (w, code) ← fetchU16 code
    let (b, code) ← fetchU8 code
    some (.u16U8 w b, code)
  | .u16U16, code => do
    let (w1, code) ← fetchU16 code
    let (w2, code) ← fetchU16 code
    some (.u16U16 w1 w2, code)
  | .u16U16U8, code => do
    let (w1, code) ← fetchU16 code
    let (w2, code) ← fetchU16 code
    let (b, code) ← fetchU8 code
    some (.u16U16U8 w1 w2 b, code)
  | .u16U8U8, code => do
    let (w, code) ← fetchU16 code
    let (b1, code) ← fetchU8 code
    let (b2, code) ← fetchU8 code
    some (.u16U8U8 w b1 b2, code)
  | .callKw, code => do
    let (posCount, code) ← fetchU8 code
    let (kwCount, code) ← fetchU8 code
    let (kwnameIds, code) ← fetchU16s kwCount.toNat code
    some (.callKw posCount kwnameIds, code)
  | .callAttrKw, code => do
    let (attrNameId, code) ← fetchU16 code
    let (posCount, code) ← fetchU8 code
    let (kwCount, code) ← fetchU8 code
    let (kwnameIds, code) ← fetchU16s kwCount.toNat code
    some (.callAttrKw attrNameId posCount kwnameIds, code)

@[simp] theorem fetchU8_cons (b : UInt8) (rest : List UInt8) :
    fetchU8 (b :: rest) = some (b, rest) :=
  rfl

@[simp] theorem fetchU16_u16Bytes (w : UInt16) (rest : List UInt8) :
    fetchU16 (u16Bytes w ++ rest) = some (w, rest) := by
  have hbytes : u16Bytes w = [UInt8.ofNat w.toNat, UInt8.ofNat (w.toNat / 256)] := rfl
  have hlt : w.toNat < 256 ^ 2 := by
    have := w.toNat_lt
    omega
  have hvalue : leValue (u16Bytes w) = w.toNat := by
    rw [u16Bytes, leValue_leBytes, Nat.mod_eq_of_lt hlt]
  rw [hbytes] at hvalue ⊢
  simp only [List.cons_append, List.nil_append, fetchU16, hvalue, UInt16.ofNat_toNat]

theorem fetchU16s_flatMap (ws : List UInt16) (rest : List UInt8) :
    fetchU16s ws.length (ws.flatMap u16Bytes ++ rest) = some (ws, rest) := by
  induction ws with
  | nil => rfl
  | cons w ws ih =>
    rw [List.flatMap_cons, List.append_assoc, List.length_cons, fetchU16s, fetchU16_u16Bytes]
    simp [ih]

/-- **An operand is read back.** -/
theorem fetchOperand_bytes (operand : Operand) (h : operand.kwCount ≤ 255) (rest : List UInt8) :
    fetchOperand operand.shape (operand.bytes ++ rest) = some (operand, rest) := by
  cases operand with
  | callKw posCount kwnameIds =>
    have hcount : kwnameIds.length % 256 = kwnameIds.length :=
      Nat.mod_eq_of_lt (Nat.lt_succ_of_le h)
    simp [shape, bytes, fetchOperand, hcount, fetchU16s_flatMap]
  | callAttrKw attrNameId posCount kwnameIds =>
    have hcount : kwnameIds.length % 256 = kwnameIds.length := Nat.mod_eq_of_lt
      (Nat.lt_succ_of_le h)
    simp [shape, bytes, fetchOperand, hcount, fetchU16s_flatMap]
  | _ => simp [shape, bytes, fetchOperand]

/-! ## Instructions -/

structure Instr where
  op : Opcode
  operand : Operand
  deriving DecidableEq

def Instr.encode (i : Instr) : List UInt8 := i.op.toByte :: i.operand.bytes

/-- Reads an instruction: the opcode, and an operand in its shape. -/
def Instr.decode : List UInt8 → Option (Instr × List UInt8)
  | [] => none
  | b :: code => do
    let op ← Opcode.ofByte b
    let (operand, code) ← fetchOperand op.operandShape code
    some (⟨op, operand⟩, code)

/-- The encoding of instructions whose operand has the shape of the opcode. -/
def codec : Codec Instr UInt8 where
  encode := Instr.encode
  decode := Instr.decode
  Encodable i := i.op.operandShape = i.operand.shape ∧ i.operand.kwCount ≤ 255
  encode_ne_nil i := by simp [Instr.encode]
  decode_encode i rest h := by
    simp [Instr.encode, Instr.decode, Opcode.ofByte_toByte, h.1, fetchOperand_bytes _ h.2]

/-- The bytecode read from its start, with the position of each instruction. -/
def decoded (bytecode : List UInt8) : Option (List (Nat × Instr)) :=
  codec.disassemble bytecode.length 0 bytecode

theorem size_of_offset {i : Instr} {relative : Int16} (h : i.operand = .offset relative) :
    codec.size i = 3 := by
  simp [Codec.size, codec, Instr.encode, h, bytes, u16Bytes]

end Monty.Bytecode
