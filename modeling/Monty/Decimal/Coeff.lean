import Monty.Lib.Radix

/-!
# Coefficients of decimals

A `Coeff` is a natural number in base `10 ^ 19`: words of 19 decimal digits, the least significant
first. The machine computes with words of 64 bits and intermediate values of 128 bits. Here these
are natural numbers, and a step whose result does not fit is `none`, as is everything else at which
the program would stop: an index out of range, a conversion or an assertion that fails.

Big integers of the library are natural numbers, made of and taken apart into digits in base
`2 ^ 32` and `2 ^ 64`.
-/

namespace Monty.Decimal

/-! ## Machine arithmetic -/

/-- A result that must fit 64 bits. -/
def u64 (n : Nat) : Option Nat := if n < 2 ^ 64 then some n else none

/-- A result that must fit 128 bits. -/
def u128 (n : Nat) : Option Nat := if n < 2 ^ 128 then some n else none

/-- A difference that must not be negative. -/
def minus (a b : Nat) : Option Nat := if b ≤ a then some (a - b) else none

/-- The sum, without its carry. -/
def wrappingAdd (a b : Nat) : Nat := (a + b) % 2 ^ 64

/-- The difference, without its borrow. -/
def wrappingSub (a b : Nat) : Nat := (a + (2 ^ 64 - b)) % 2 ^ 64

/-- The low word of the product. -/
def wrappingMul (a b : Nat) : Nat := a * b % 2 ^ 64

/-- An assertion. -/
def require (p : Prop) [Decidable p] : Option Unit := if p then some () else none

/-- The high word of a double word. -/
def highHalf (t : Nat) : Option Nat := u64 (t / 2 ^ 64)

/-- The low word of a double word. -/
def lowHalf (t : Nat) : Nat := t % 2 ^ 64

/-! ## Words -/

/-- Decimal digits per word. -/
def wordDigits : Nat := 19

/-- A word holds less than this. -/
def radix : Nat := 10000000000000000000

/-- The table of the powers of ten. -/
def powTen (i : Nat) : Option Nat := if i < 20 then some (10 ^ i) else none

/-- The reciprocal of the radix, less its top bit. -/
def radixReciprocal : Nat := (2 ^ 128 - 1) / radix - 2 ^ 64

/-- The second correction of `divRadix`. -/
def correctQuotient (q r : Nat) : Option (Nat × Nat) :=
  if radix ≤ r then do
    let q ← u64 (q + 1)
    let r ← minus r radix
    pure (q, r)
  else some (q, r)

/-- Division by `radix` with two multiplications and two corrections. -/
def divRadix (t : Nat) : Option (Nat × Nat) := do
  let u1 ← highHalf t
  let u0 := lowHalf t
  require (u1 < radix)
  let product ← u128 (radixReciprocal * u1)
  let product ← u128 (product + t)
  let q := wrappingAdd (← highHalf product) 1
  let r := wrappingSub u0 (wrappingMul q radix)
  let corrected :=
    if lowHalf product < r then correctQuotient (wrappingSub q 1) (wrappingAdd r radix)
    else correctQuotient q r
  let (q, r) ← corrected
  require (q = lowHalf (t / radix) ∧ r = lowHalf (t % radix))
  pure (q, r)

/-- The number of decimal digits of a word, which must not be zero. -/
def digitsOfWord (word : Nat) : Option Nat := do
  require (word ≠ 0)
  u64 (Nat.log 10 word + 1)

/-- The number of trailing zeros of a word; a word has no more than 20 digits. -/
def wordTrailingZeros : Nat → Nat → Nat → Option Nat
  | 0, _, _ => none
  | fuel + 1, word, zeros =>
    if word % 10 = 0 then do wordTrailingZeros fuel (word / 10) (← u64 (zeros + 1)) else some zeros

/-- The digit of a word at a position. -/
def digitOf (word pos : Nat) : Option Nat := do
  let p ← powTen pos
  pure (word / p % 10)

/-! ## Coefficients -/

/-- Words of decimal digits, the lowest first. -/
structure Coeff where
  words : List Nat
  deriving DecidableEq, Repr

/-- What a right shift drops: the first digit, and whether there is a digit below it that is not
zero. -/
structure Discarded where
  first : Nat
  sticky : Bool
  deriving DecidableEq, Repr

/-- Nothing was cut off. -/
def Discarded.none : Discarded := ⟨0, false⟩

/-- The words from a place on, which must not be beyond the end. -/
def sliceFrom (l : List Nat) (n : Nat) : Option (List Nat) :=
  if n ≤ l.length then some (l.drop n) else none

/-- The words up to a place. -/
def sliceTo (l : List Nat) (n : Nat) : Option (List Nat) :=
  if n ≤ l.length then some (l.take n) else none

namespace Coeff

/-- No words. -/
def zero : Coeff := ⟨[]⟩

/-- The word 1. -/
def one : Coeff := ⟨[1]⟩

/-- The words without leading zeros. -/
def fromWords (words : List Nat) : Coeff := ⟨Radix.trim words⟩

/-- A machine word takes up to two words. -/
def fromU64 (value : Nat) : Coeff :=
  if value = 0 then ⟨[]⟩
  else if value < radix then ⟨[value]⟩
  else ⟨[value % radix, value / radix]⟩

/-- A double word takes up to three. -/
def fromU128 (value : Nat) : Option Coeff := do
  let high := value / 2 ^ 64
  if high = 0 then
    let value ← u64 value
    pure (fromU64 value)
  else if high < radix then
    let (quotient, low) ← divRadix value
    pure ⟨low :: (fromU64 quotient).words⟩
  else
    let w0 ← u64 (value % radix)
    let w1 ← u64 (value / radix % radix)
    let w2 ← u64 (value / radix / radix % radix)
    pure (fromWords [w0, w1, w2])

/-- The value of one piece of a decimal numeral. -/
def parseWord (chunk : List Char) : Option Nat := chunk.foldlM (fun acc c => do
    let digit ← minus c.toNat 48
    let acc ← u64 (acc * 10)
    u64 (acc + digit)) 0

/-- Parses decimal digits in pieces of 19 from the end. -/
def fromDigits (digits : List Char) : Option Coeff := do
  require (digits.all Char.isDigit)
  let words ← ((Radix.chunks 19 digits.reverse).map List.reverse).mapM parseWord
  pure (fromWords words)

/-- A power of ten. -/
def pow10 (n : Nat) : Option Coeff := do
  let p ← powTen (n % wordDigits)
  pure ⟨List.replicate (n / wordDigits) 0 ++ [p]⟩

/-- So many copies of a digit, which must not be zero. -/
def repeatDigit (digit count : Nat) : Option Coeff := do
  require (1 ≤ digit ∧ digit ≤ 9)
  let repunit (len : Nat) : Option Nat := do
    let p ← powTen len
    let p ← minus p 1
    u64 (p / 9 * digit)
  let word ← repunit 19
  let full := List.replicate (count / wordDigits) word
  if 0 < count % wordDigits then
    let top ← repunit (count % wordDigits)
    pure ⟨full ++ [top]⟩
  else pure ⟨full⟩

variable (c : Coeff)

/-- Zero has no words. -/
def isZero : Bool := c.words.isEmpty

/-- The number of decimal digits; zero has one. -/
def digits : Option Nat :=
  match c.words.getLast? with
  | none => some 1
  | some top => do
    let n ← u64 (c.words.length * wordDigits)
    let n ← minus n wordDigits
    let k ← digitsOfWord top
    u64 (n + k)

/-- The last digit. -/
def lastDigit : Option Nat :=
  match c.words.head? with
  | none => some 0
  | some word => digitOf word 0

/-- The digit at a position, counted from the least significant. -/
def digitAt (pos : Nat) : Option Nat :=
  match c.words[pos / wordDigits]? with
  | none => some 0
  | some word => digitOf word (pos % wordDigits)

/-- Passes the words that are zero. -/
def trailingZerosLoop : Nat → List Nat → Option Nat
  | _, [] => some 0
  | zeros, word :: words =>
    if word ≠ 0 then do u64 (zeros + (← wordTrailingZeros 20 word 0))
    else do trailingZerosLoop (← u64 (zeros + wordDigits)) words

/-- How many zeros the number ends in. -/
def trailingZeros : Option Nat := trailingZerosLoop 0 c.words

/-- A one before the zeros. -/
def isPowerOfTen : Option Bool :=
  if c.isZero then some false
  else do
    let zeros ← c.trailingZeros
    let top ← minus (← c.digits) 1
    if zeros = top then pure ((← c.digitAt top) == 1) else pure false

/-- The value, if it fits 64 bits. -/
def toU64 : Option Nat :=
  match c.words with
  | [] => some 0
  | [word] => some word
  | [low, high] => do u64 ((← u64 (high * radix)) + low)
  | _ => none

/-- The value, if it fits 128 bits. -/
def toU128 : Option Nat :=
  if 3 < c.words.length then none
  else c.words.reverse.foldlM (fun acc word => do u128 ((← u128 (acc * radix)) + word)) 0

/-! ## Shifts -/

/-- Each word splits: its low part moves up, and its high part is carried into the next word. -/
def shlLoop (lowDiv lowMul : Nat) : Nat → List Nat → Option (List Nat)
  | carry, [] => some (if carry ≠ 0 then [carry] else [])
  | carry, word :: words => do
    let low ← u64 (word % lowDiv * lowMul)
    let out ← u64 (low + carry)
    let rest ← shlLoop lowDiv lowMul (word / lowDiv) words
    pure (out :: rest)

/-- Multiplies by a power of ten. -/
def shl (n : Nat) : Option Coeff :=
  if c.isZero || n = 0 then some c
  else
    let zeroWords := List.replicate (n / wordDigits) 0
    let shift := n % wordDigits
    if shift = 0 then some ⟨zeroWords ++ c.words⟩
    else do
      let lowDiv ← powTen (19 - shift)
      let lowMul ← powTen shift
      let words ← shlLoop lowDiv lowMul 0 c.words
      pure ⟨zeroWords ++ words⟩

/-- Whether there is a digit below a position that is not zero. -/
def anyNonzeroBelow (pos : Nat) : Option Bool := do
  let full := min (pos / wordDigits) c.words.length
  let p ← powTen (pos % wordDigits)
  let low ← sliceTo c.words full
  pure (low.any (· ≠ 0) || (c.words[full]?).any fun word => word % p ≠ 0)

/-- Each word takes its own high digits and the low digits of the next. -/
def shrLoop (highDiv highMul : Nat) : List Nat → Option (List Nat)
  | [] => some []
  | word :: words => do
    let low ← u64 (words.headD 0 % highDiv * highMul)
    let out ← u64 (word / highDiv + low)
    let rest ← shrLoop highDiv highMul words
    pure (out :: rest)

/-- Divides by a power of ten. -/
def shr (n : Nat) : Option (Coeff × Discarded) :=
  if c.isZero || n = 0 then some (c, .none)
  else do
    let digits ← c.digits
    let first ← c.digitAt (n - 1)
    let sticky ← c.anyNonzeroBelow (n - 1)
    let discarded : Discarded := ⟨first, sticky⟩
    if digits ≤ n then pure (zero, discarded)
    else
      let shift := n % wordDigits
      let src ← sliceFrom c.words (n / wordDigits)
      if shift = 0 then pure (fromWords src, discarded)
      else
        let highDiv ← powTen shift
        let highMul ← powTen (19 - shift)
        let words ← shrLoop highDiv highMul src
        pure (fromWords words, discarded)

/-- The last `n` digits. -/
def lowDigits (n : Nat) : Option Coeff :=
  let full := n / wordDigits
  if c.words.length ≤ full then some c
  else do
    let words ← sliceTo c.words full
    let word ← c.words[full]?
    let p ← powTen (n % wordDigits)
    pure (fromWords (words ++ [word % p]))

/-! ## Sums and differences -/

/-- Two words can sum past 64 bits, so that one is compared with what is missing to the other. -/
def addLoop : Bool → List Nat → List Nat → Option (List Nat)
  | carry, [], _ => some (if carry then [1] else [])
  | carry, word :: long, short => do
    let addend ← u64 (short.headD 0 + carry.toNat)
    let room ← minus radix addend
    let sum := if room ≤ word then minus word room else u64 (word + addend)
    let out ← sum
    let rest ← addLoop (room ≤ word) long short.tail
    pure (out :: rest)

/-- The sum. -/
def add (other : Coeff) : Option Coeff := do
  let (long, short) := if other.words.length ≤ c.words.length then (c, other) else (other, c)
  let words ← addLoop false long.words short.words
  pure ⟨words⟩

/-- The order of the numbers. -/
def cmp (other : Coeff) : Ordering := Radix.compareTop c.words other.words

/-- Word by word, with the borrow. -/
def subLoop : Nat → List Nat → List Nat → Option (List Nat)
  | _, [], _ => some []
  | borrow, word :: words, others => do
    let subtrahend ← u64 (others.headD 0 + borrow)
    if subtrahend ≤ word then
      let rest ← subLoop 0 words others.tail
      pure ((word - subtrahend) :: rest)
    else
      let room ← minus radix subtrahend
      let out ← u64 (word + room)
      let rest ← subLoop 1 words others.tail
      pure (out :: rest)

/-- The difference, which must not be negative. -/
def sub (other : Coeff) : Option Coeff := do
  require (c.cmp other ≠ .lt)
  let words ← subLoop 0 c.words other.words
  pure (fromWords words)

/-- The carry goes through full words. -/
def incrementLoop : List Nat → Option (List Nat)
  | [] => some [1]
  | word :: words =>
    if word = radix - 1 then do
      let rest ← incrementLoop words
      pure (0 :: rest)
    else do
      let word ← u64 (word + 1)
      pure (word :: words)

/-- Adds one. -/
def increment : Option Coeff := do
  let words ← incrementLoop c.words
  pure ⟨words⟩

/-! ## Products -/

/-- From here on products are split. -/
def karatsubaWords : Nat := 48

/-- One row: `x` times the words of one factor is added to the words from this row's place on. The
word after them is overwritten with the carry. -/
def schoolbookRow (x : Nat) : Nat → List Nat → List Nat → Option (List Nat)
  | _, [], _ => none
  | carry, _ :: words, [] => some (carry :: words)
  | carry, word :: words, y :: ys => do
    let t ← u128 (x * y)
    let t ← u128 (t + word)
    let t ← u128 (t + carry)
    let (high, low) ← divRadix t
    let rest ← schoolbookRow x high words ys
    pure (low :: rest)

/-- A row for each word of the other factor, each one place further than the one before. -/
def schoolbookLoop (b : List Nat) : List Nat → List Nat → Option (List Nat)
  | [], words => some words
  | x :: a, words => do
    match ← schoolbookRow x 0 words b with
    | [] => none
    | word :: words =>
      let rest ← schoolbookLoop b a words
      pure (word :: rest)

/-- The product, row by row. -/
def schoolbook (a b : List Nat) : Option Coeff := do
  let words ← schoolbookLoop b a (List.replicate (a.length + b.length) 0)
  pure (fromWords words)

/-- The words below and above a place. -/
def splitWords (n : Nat) : Coeff × Coeff :=
  (fromWords (c.words.take (min n c.words.length)), fromWords (c.words.drop (min n c.words.length)))

/-- Moves up by whole words. -/
def shiftWords (n : Nat) : Coeff := if c.isZero then zero else ⟨List.replicate n 0 ++ c.words⟩

/-- `short` times each piece of `long` that is as long as it. -/
def mulPieces (mul : Coeff → Coeff → Option Coeff) (long short : Coeff) : Option Coeff :=
  let chunk := short.words.length
  (Radix.chunks chunk long.words).zipIdx.foldlM (fun acc piece => do
    let part ← mul (fromWords piece.1) short
    acc.add (part.shiftWords (piece.2 * chunk))) zero

/-- Three products of halves. -/
def mulHalves (mul : Coeff → Coeff → Option Coeff) (long short : Coeff) : Option Coeff := do
  let half := long.words.length / 2
  let (a0, a1) := long.splitWords half
  let (b0, b1) := short.splitWords half
  let low ← mul a0 b0
  let high ← mul a1 b1
  let a ← a0.add a1
  let b ← b0.add b1
  let middle ← mul a b
  let middle ← middle.sub low
  let middle ← middle.sub high
  let sum ← (high.shiftWords (2 * half)).add (middle.shiftWords half)
  sum.add low

/-- The product, by recursion to the given depth. -/
def mulAux : Nat → Coeff → Coeff → Option Coeff
  | 0, _, _ => none
  | depth + 1, a, b =>
    if a.isZero || b.isZero then some zero
    else
      match a.words, b.words with
      | [x], [y] => do
        let t ← u128 (x * y)
        let (high, low) ← divRadix t
        pure (fromWords [low, high])
      | _, _ =>
        let (long, short) := if b.words.length ≤ a.words.length then (a, b) else (b, a)
        if short.words.length < karatsubaWords then schoolbook long.words short.words
        else if 2 * short.words.length ≤ long.words.length then mulPieces (mulAux depth) long short
        else mulHalves (mulAux depth) long short

/-- Each step of the recursion has fewer words. -/
def mul (other : Coeff) : Option Coeff := mulAux (c.words.length + other.words.length + 1) c other

/-! ## Binary integers -/

/-- Horner's rule: the limbs times `radix`, plus a word. -/
def hornerStep : Nat → List Nat → Option (List Nat)
  | carry, [] => some (if carry ≠ 0 then [carry] else [])
  | carry, limb :: limbs => do
    let t ← u128 (limb * radix)
    let t ← u128 (t + carry)
    let high ← highHalf t
    let rest ← hornerStep high limbs
    pure (lowHalf t :: rest)

/-- The big integer that is made of the two halves of each limb. -/
def toBiguint : Option Nat := do
  let limbs ← c.words.reverse.foldlM (fun limbs word => hornerStep word limbs) []
  pure (Nat.ofDigits (2 ^ 32) (limbs.flatMap fun limb => [limb % 2 ^ 32, limb / 2 ^ 32 % 2 ^ 32]))

/-- Short division of the limbs by `radix`, from the top. -/
def divLimbs : List Nat → Option (List Nat × Nat)
  | [] => some ([], 0)
  | limb :: limbs => do
    let (quotients, rem) ← divLimbs limbs
    let (quotient, r) ← divRadix (rem * 2 ^ 64 + limb)
    pure (quotient :: quotients, r)

/-- The words of binary limbs. -/
def fromLimbs : Nat → List Nat → Option (List Nat)
  | _, [] => some []
  | 0, _ :: _ => none
  | fuel + 1, limb :: limbs => do
    let (quotients, rem) ← divLimbs (limb :: limbs)
    let rest ← fromLimbs fuel (Radix.trim quotients)
    pure (rem :: rest)

/-- Each division takes more than half of a limb away. -/
def fromBiguint (value : Nat) : Option Coeff :=
  if value < 2 ^ 128 then fromU128 value
  else do
    let limbs := Nat.digits (2 ^ 64) value
    let words ← fromLimbs (2 * limbs.length) limbs
    pure (fromWords words)

/-! ## Quotients -/

/-- Short division by a word, from the top. -/
def shortDiv (divisor : Nat) : List Nat → Option (List Nat × Nat)
  | [] => some ([], 0)
  | word :: words => do
    let (quotients, rem) ← shortDiv divisor words
    let cur ← u128 (rem * radix)
    let cur ← u128 (cur + word)
    require (divisor ≠ 0)
    let quotient ← u64 (cur / divisor)
    pure (quotient :: quotients, cur % divisor)

/-- Quotient and remainder. -/
def divRem (other : Coeff) : Option (Coeff × Coeff) := do
  require (other.isZero = false)
  if c.cmp other = .lt then pure (zero, c)
  else
    match c.toU128, other.toU128 with
    | some a, some b => do
      require (b ≠ 0)
      pure (← fromU128 (a / b), ← fromU128 (a % b))
    | _, _ =>
      match other.words with
      | [divisor] => do
        let (quotients, rem) ← shortDiv divisor c.words
        let rem ← u64 rem
        pure (fromWords quotients, fromU64 rem)
      | _ => do
        let a ← c.toBiguint
        let b ← other.toBiguint
        require (b ≠ 0)
        pure (← fromBiguint (a / b), ← fromBiguint (a % b))

/-! ## Decimal numerals -/

/-- Appends the decimal digits: all words but the first are padded to 19 digits. -/
def writeDigits (out : List Char) : Option (List Char) :=
  match c.words.reverse with
  | [] => some (out ++ ['0'])
  | top :: words =>
    words.foldlM (fun out word => do
      let digits := Nat.toDigits 10 word
      let pad ← minus 19 digits.length
      pure (out ++ List.replicate pad '0' ++ digits)) (out ++ Nat.toDigits 10 top)

end Coeff

end Monty.Decimal
