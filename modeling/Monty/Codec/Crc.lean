import Monty.Lib.ShiftRegister

/-!
# The checksums of `binascii`

`crc32` adds a whole byte to its register and then moves it down by a nibble twice, each time with
one word of a table of sixteen; `crcHqx` works a bit at a time, from the top. The table holds four
ticks of each nibble, so by the linearity of the register the loop over the bytes is the division of
the message, bit by bit (`crc32_eq_register`).
-/

namespace Monty.Codec

open ShiftRegister BitVec

/-- The `NIBBLE_TABLE` of `crc32`. -/
def nibbleTable : List (BitVec 32) :=
  [0x00000000#32, 0x1db71064#32, 0x3b6e20c8#32, 0x26d930ac#32, 0x76dc4190#32,
    0x6b6b51f4#32, 0x4db26158#32,
    0x5005713c#32, 0xedb88320#32, 0xf00f9344#32, 0xd6d6a3e8#32, 0xcb61b38c#32,
    0x9b64c2b0#32, 0x86d3d2d4#32, 0xa00ae278#32, 0xbdbdf21c#32]

theorem nibble_lt (crc : BitVec 32) : (crc &&& 0x0f#32).toNat < nibbleTable.length := by
  exact Nat.lt_of_le_of_lt Nat.and_le_right (by decide)

/-- One of the two lookups for a byte; the nibble is always a place of the table. -/
def nibbleStep (crc : BitVec 32) : BitVec 32 :=
  (crc >>> 4) ^^^ nibbleTable.get ⟨(crc &&& 0x0f#32).toNat, nibble_lt crc⟩

def crc32Byte (crc : BitVec 32) (byte : BitVec 8) : BitVec 32 :=
  nibbleStep (nibbleStep (crc ^^^ byte.setWidth 32))

def crc32 (data : List (BitVec 8)) (seed : BitVec 32) : BitVec 32 :=
  ~~~ data.foldl crc32Byte (~~~ seed)

def crcHqxBit (crc : BitVec 16) : BitVec 16 :=
  if crc &&& 0x8000#16 = 0#16 then crc <<< 1 else (crc <<< 1) ^^^ 0x1021#16

def crcHqxByte (crc : BitVec 16) (byte : BitVec 8) : BitVec 16 :=
  crcHqxBit^[8] (crc ^^^ (byte.setWidth 16 <<< 8))

def crcHqx (data : List (BitVec 8)) (seed : BitVec 16) : BitVec 16 := data.foldl crcHqxByte seed

/-! ## The register -/

/-- The polynomial of CRC-32, its highest power the lowest bit. -/
def polynomial : BitVec 32 := 0xedb88320#32

/-- The bits of a byte in the order in which they are divided. -/
def byteBits (byte : BitVec 8) : List Bool := (List.range 8).map byte.getLsbD

/-- The division of a message, one bit after the other, from the complement of the seed. -/
def crc32Register (data : List (BitVec 8)) (seed : BitVec 32) : BitVec 32 :=
  ~~~ (data.flatMap byteBits).foldl (feed polynomial) (~~~ seed)

theorem nibbleTable_get (i : Fin nibbleTable.length) :
    nibbleTable.get i = (tick polynomial)^[4] (BitVec.ofNat 32 i) := by
  decide +revert

theorem nibbleStep_eq (crc : BitVec 32) : nibbleStep crc = (tick polynomial)^[4] crc := by
  rw [iterate_tick 4 0x0f#32 crc (by decide), nibbleStep, nibbleTable_get, ofNat_toNat, setWidth_eq]

theorem ofBits_byteBits (byte : BitVec 8) : ofBits 32 (byteBits byte) = byte.setWidth 32 := by
  refine eq_of_getLsbD_eq fun i hi => ?_
  rw [getLsbD_ofBits, byteBits]
  grind

theorem crc32Byte_eq (crc : BitVec 32) (byte : BitVec 8) :
    crc32Byte crc byte = (byteBits byte).foldl (feed polynomial) crc := by
  have hlength : (byteBits byte).length = 4 + 4 := by simp [byteBits]
  rw [feedAll_eq _ (by omega), hlength, ofBits_byteBits, Function.iterate_add_apply,
    crc32Byte, nibbleStep_eq, nibbleStep_eq]

theorem crc32_eq_register (data : List (BitVec 8)) (seed : BitVec 32) :
    crc32 data seed = crc32Register data seed := by
  rw [crc32, crc32Register, List.foldl_flatMap, show crc32Byte = _ from funext₂ crc32Byte_eq]

/-! ## A message in pieces -/

theorem crc32_append (a b : List (BitVec 8)) (seed : BitVec 32) :
    crc32 (a ++ b) seed = crc32 b (crc32 a seed) := by
  rw [crc32, crc32, crc32, BitVec.not_not, List.foldl_append]

theorem crcHqx_append (a b : List (BitVec 8)) (seed : BitVec 16) :
    crcHqx (a ++ b) seed = crcHqx b (crcHqx a seed) :=
  List.foldl_append

/-- The nibble loop divides by the polynomial, and both checksums continue over a message given in
pieces. -/
theorem crc_divides_and_continues : (∀ data seed, crc32 data seed = crc32Register data seed) ∧
      (∀ a b seed, crc32 (a ++ b) seed = crc32 b (crc32 a seed)) ∧
      ∀ a b seed, crcHqx (a ++ b) seed = crcHqx b (crcHqx a seed) :=
  ⟨crc32_eq_register, crc32_append, crcHqx_append⟩

-- The check value of CRC-32: the digits `1` to `9`.
example : crc32 ((List.range 9).map fun i => BitVec.ofNat 8 (0x31 + i)) 0 = 0xcbf43926#32 :=
  by decide +kernel

end Monty.Codec
