import Mathlib.Data.List.Nodup

/-!
# Signatures and the binding of arguments

A `Signature` has the parameters of a Python function, and `Signature.bind` fills the slots of a
call with its arguments: positional values first, then keywords, then defaults. Where all parameters
may be given by position and no keyword is there, a fast path takes the values as they are.

Names are their texts here: interned names are equal just if their texts are. Slots that are not
bound are `none`. The tuple and the dict that a call makes are what they hold, and memory may be too
small for them.
-/

namespace Monty.Call

variable {α : Type}

/-! ## Errors -/

/-- The function that is called. -/
structure Identifier where
  name : String
  position : Nat
  deriving DecidableEq, Repr

/-- Why a call is refused. `memory` is a limit that was reached, and `outOfBounds` a panic. -/
inductive BindError
  | keywordsMustBeStrings
  | positionalOnly (func param : String)
  | duplicateArg (func param : String)
  | unexpectedKeyword (func key : String)
  | tooManyPositional (func : String) (min max actual kwonlyGiven : Nat)
  | missingPositional (func : String) (names : List String)
  | missingKwonly (func : String) (names : List String)
  | memory
  | outOfBounds
  deriving DecidableEq, Repr

def formatParamNames : List String → String
  | [] => ""
  | [a] => s!"'{a}'"
  | [a, b] => s!"'{a}' and '{b}'"
  | names => String.intercalate ", " (names.dropLast.map fun n => s!"'{n}'") ++
      ", and '" ++ names.getLast?.getD "" ++ "'"

def tooManyPositionalRangeMsg (name : String) (min max actual kwonlyGiven : Nat) : String :=
  let plural (n : Nat) := if n = 1 then "argument" else "arguments"
  let takes := if min = max then s!"{max} positional " ++ plural max
    else s!"from {min} to {max} positional arguments"
  if 0 < kwonlyGiven then
    s!"{name}() takes {takes} but {actual} positional " ++ plural actual ++
      s!" (and {kwonlyGiven} keyword-only " ++ plural kwonlyGiven ++ ") were given"
  else s!"{name}() takes {takes} but {actual} " ++ (if actual = 1 then "was"
    else "were") ++ " given"

def missingMsg (name kind : String) (names : List String) : String :=
  if names.length = 1 then
    s!"{name}() missing 1 required {kind} argument: " ++ formatParamNames names
  else s!"{name}() missing {names.length} required {kind} arguments: " ++ formatParamNames names

/-- The text of a `TypeError`; limits and panics have none of their own. -/
def BindError.message : BindError → String
  | .keywordsMustBeStrings => "keywords must be strings"
  | .positionalOnly func param =>
    s!"{func}() got some positional-only arguments passed as keyword arguments: '{param}'"
  | .duplicateArg func param => s!"{func}() got multiple values for argument '{param}'"
  | .unexpectedKeyword func key => s!"{func}() got an unexpected keyword argument '{key}'"
  | .tooManyPositional func min max actual kwonlyGiven =>
    tooManyPositionalRangeMsg func min max actual kwonlyGiven
  | .missingPositional func names => missingMsg func "positional" names
  | .missingKwonly func names => missingMsg func "keyword-only" names
  | .memory => ""
  | .outOfBounds => ""

/-- An error, and the place in the code that the fast path adds. -/
structure Raised where
  error : BindError
  position : Option Nat
  deriving DecidableEq, Repr

/-! ## Signatures -/

structure Signature where
  posArgs : Option (List String)
  /-- How many of them have defaults, from the end. -/
  posDefaultsCount : Nat
  args : Option (List String)
  argDefaultsCount : Nat
  varArgs : Option String
  kwargs : Option (List String)
  /-- Which of the defaults of keyword-only parameters each of those has. -/
  kwargDefaultMap : Option (List (Option Nat))
  varKwargs : Option String
  deriving DecidableEq, Repr

inductive BindMode
  | simple | simpleWithDefaults | complex
  deriving DecidableEq, Repr

namespace Signature

def new (posArgs : List String) (posDefaultsCount : Nat) (args : List String)
    (argDefaultsCount : Nat)
    (varArgs : Option String) (kwargs : List String) (kwargDefaultMap : List (Option Nat))
    (varKwargs : Option String) : Signature where
  posArgs := if posArgs = [] then none else some posArgs
  posDefaultsCount := posDefaultsCount
  args := if args = [] then none else some args
  argDefaultsCount := argDefaultsCount
  varArgs := varArgs
  kwargs := if kwargs = [] then none else some kwargs
  kwargDefaultMap := if kwargs = [] then none else some kwargDefaultMap
  varKwargs := varKwargs

variable (sig : Signature)

def posArgCount : Nat := sig.posArgs.elim 0 List.length

def argCount : Nat := sig.args.elim 0 List.length

def kwargCount : Nat := sig.kwargs.elim 0 List.length

def paramCount : Nat := sig.posArgCount + sig.argCount + sig.kwargCount

def totalSlots : Nat :=
  sig.paramCount + (if sig.varArgs.isSome then 1 else 0) + if sig.varKwargs.isSome then 1 else 0

def kwargDefaultsCount : Nat :=
  sig.kwargDefaultMap.elim 0 fun map => (map.filter Option.isSome).length

def totalDefaultsCount : Nat := sig.posDefaultsCount + sig.argDefaultsCount + sig.kwargDefaultsCount

def requiredPositionalCount : Nat :=
  sig.posArgCount + sig.argCount - sig.posDefaultsCount - sig.argDefaultsCount

/-- No limit if there is `*args`. -/
def maxPositionalCount : Option Nat :=
  if sig.varArgs.isSome then none else some (sig.posArgCount + sig.argCount)

/-- The names, in the order of the slots. -/
def paramNames : List String :=
  sig.posArgs.getD [] ++ sig.args.getD [] ++ sig.varArgs.toList ++ sig.kwargs.getD [] ++
    sig.varKwargs.toList

/-- How many positional values need no binding at all. -/
def exactPositionalCount : Option Nat :=
  if sig.posDefaultsCount = 0 ∧ sig.argDefaultsCount = 0 ∧ sig.varArgs = none ∧ sig.kwargs = none ∧
      sig.varKwargs = none then some sig.paramCount
  else none

def bindMode : BindMode :=
  if sig.posArgs = none ∧ sig.posDefaultsCount = 0 ∧ sig.argDefaultsCount = 0 ∧ sig.varArgs = none ∧
      sig.kwargs = none ∧ sig.varKwargs = none then .simple
  else if sig.posArgs = none ∧ sig.varArgs = none ∧ sig.kwargs = none ∧ sig.varKwargs = none ∧
      0 < sig.argDefaultsCount then .simpleWithDefaults
  else .complex

end Signature

/-! ## Arguments and slots -/

/-- The key of a keyword argument, which `f(**d)` may take from anywhere. -/
inductive Key
  | str (name : String)
  | other
  deriving DecidableEq, Repr

/-- The arguments of a call, in the shapes that calls have. -/
inductive ArgValues (α : Type)
  | empty
  | one (v : α)
  | two (v1 v2 : α)
  | kwargs (keywords : List (Key × α))
  | argsKargs (pos : List α) (keywords : List (Key × α))

def ArgValues.intoParts : ArgValues α → List α × List (Key × α)
  | .empty => ([], [])
  | .one v => ([v], [])
  | .two v1 v2 => ([v1, v2], [])
  | .kwargs keywords => ([], keywords)
  | .argsKargs pos keywords => (pos, keywords)

/-- What a slot is bound to. -/
inductive Bound (α : Type)
  | value (v : α)
  | tuple (vs : List α)
  | dict (entries : List (String × α))
  deriving DecidableEq, Repr

/-- A slot of the namespace, `none` while it is `Undefined`. -/
abbrev Slot (α : Type) := Option (Bound α)

/-- Whether there is memory for a tuple of that many values, rounded up, and for a dict of that
many. -/
structure Memory where
  tupleFits : Nat → Bool
  dictFits : Nat → Bool

def index {β : Type} (l : List β) (i : Nat) : Except BindError β :=
  match l[i]? with
  | some b => .ok b
  | none => .error .outOfBounds

/-- The entry of the key is replaced, or added at the end. -/
def dictSet (entries : List (String × α)) (key : String) (value : α) : List (String × α) :=
  if entries.any (·.1 = key) then entries.map fun e => if e.1 = key then (key, value) else e
  else entries ++ [(key, value)]

/-- Puts the next values into the slots from `start`, as many as there are up to `n`; those that are
left come out. -/
def fillSlots (slots : List (Slot α)) (start : Nat) : Nat → List α → List (Slot α) × List α
  | 0, pos => (slots, pos)
  | _ + 1, [] => (slots, [])
  | n + 1, v :: pos => fillSlots (slots.set start (some (.value v))) (start + 1) n pos

/-- The slots and, if there is `**kwargs`, the keywords collected so far. -/
structure KeywordState (α : Type) where
  slots : List (Slot α)
  excess : Option (List (String × α))

/-- Binds a slot by keyword, unless it is bound. -/
def bindSlot (func : Identifier) (state : KeywordState α) (i : Nat) (param : String) (value : α) :
    Except BindError (KeywordState α) := do
  match ← index state.slots i with
  | some _ => .error (.duplicateArg func.name param)
  | none => pure { state with slots := state.slots.set i (some (.value value)) }

/-- The slots of `n` parameters that have defaults, from slot `ns` and default `idx` on: those that
are not bound get them. -/
def applyDefaults (defaults : List α) (ns idx : Nat) (slots : List (Slot α)) :
    Nat → Except BindError (List (Slot α))
  | 0 => pure slots
  | n + 1 => do
    let slots ← applyDefaults defaults ns idx slots n
    match ← index slots (ns + n) with
    | some _ => pure slots
    | none =>
      let v ← index defaults (idx + n)
      pure (slots.set (ns + n) (some (.value v)))

/-- The same for keyword-only parameters, from slot `ns` on, each with its own default or none. -/
def applyKwDefaults (defaults : List α) (idx : Nat) : Nat → List (Slot α) → List (Option Nat) →
    Except BindError (List (Slot α))
  | _, slots, [] => pure slots
  | ns, slots, none :: map => applyKwDefaults defaults idx (ns + 1) slots map
  | ns, slots, some d :: map => do
    match ← index slots ns with
    | some _ => applyKwDefaults defaults idx (ns + 1) slots map
    | none =>
      let v ← index defaults (idx + d)
      applyKwDefaults defaults idx (ns + 1) (slots.set ns (some (.value v))) map

/-- The names of the required parameters that are not bound, from slot `ns` on. -/
def missing (slots : List (Slot α)) (required : Nat → Bool) : Nat → Nat → List String →
    Except BindError (List String)
  | _, _, [] => pure []
  | ns, i, name :: names => do
    let rest ← missing slots required (ns + 1) (i + 1) names
    if required i then
      match ← index slots ns with
      | none => pure (name :: rest)
      | some _ => pure rest
    else pure rest

namespace Signature

variable (sig : Signature)

/-- The slot of the first keyword-only parameter. -/
def kwStart : Nat := sig.posArgCount + sig.argCount + if sig.varArgs.isSome then 1 else 0

/-- Positional values: to positional-only parameters, then to the others that may be given by
position; what is left goes to `*args`, if there is one. -/
def bindPositional (memory : Memory) (pos : List α) : Except BindError (List (Slot α)) :=
  let slots := List.replicate sig.totalSlots none
  let (slots, rest) := fillSlots slots 0 sig.posArgCount pos
  let (slots, rest) := fillSlots slots sig.posArgCount sig.argCount rest
  if sig.varArgs.isSome then
    if memory.tupleFits rest.length then
      .ok (slots.set (sig.posArgCount + sig.argCount) (some (.tuple rest)))
    else .error .memory
  else .ok slots

/-- One keyword argument. Positional-only parameters are looked at first. -/
def bindKeyword (memory : Memory) (func : Identifier) (state : KeywordState α) :
    Key × α → Except BindError (KeywordState α)
  | (.other, _) => .error .keywordsMustBeStrings
  | (.str name, value) =>
    match (sig.posArgs.getD []).find? (· = name) with
    | some param => .error (.positionalOnly func.name param)
    | none =>
      match (sig.args.getD []).findIdx? (· = name) with
      | some i => bindSlot func state (sig.posArgCount + i) name value
      | none =>
        match (sig.kwargs.getD []).findIdx? (· = name) with
        | some i => bindSlot func state (sig.kwStart + i) name value
        | none =>
          match state.excess with
          | some excess =>
            if memory.dictFits (dictSet excess name value).length then
              .ok { state with excess := some (dictSet excess name value) }
            else .error .memory
          | none => .error (.unexpectedKeyword func.name name)

variable (func : Identifier)

/-- More positional values than there is room for. The error counts the keyword-only parameters that
are bound. -/
def checkOverflow (actual : Nat) (slots : List (Slot α)) : Except BindError Unit :=
  if sig.maxPositionalCount.any (· < actual) then
    .error (.tooManyPositional func.name sig.requiredPositionalCount
      (sig.posArgCount + sig.argCount)
      actual (((slots.drop sig.kwStart).take sig.kwargCount).filter Option.isSome).length)
  else .ok ()

def applyAllDefaults (defaults : List α) (slots : List (Slot α)) :
    Except BindError (List (Slot α)) := do
  let slots ← applyDefaults defaults (sig.posArgCount - sig.posDefaultsCount) 0 slots
    sig.posDefaultsCount
  let slots ← applyDefaults defaults (sig.posArgCount + (sig.argCount - sig.argDefaultsCount))
    sig.posDefaultsCount slots sig.argDefaultsCount
  applyKwDefaults defaults (sig.posDefaultsCount + sig.argDefaultsCount) sig.kwStart slots
    (sig.kwargDefaultMap.getD [])

/-- Every required parameter must be bound. -/
def checkMissing (slots : List (Slot α)) : Except BindError Unit := do
  let missingPos ← missing slots (· < sig.posArgCount - sig.posDefaultsCount) 0 0
    (sig.posArgs.getD [])
  let missingArgs ← missing slots (· < sig.argCount - sig.argDefaultsCount) sig.posArgCount 0
    (sig.args.getD [])
  let missingKwonly ← missing slots
    (fun i => (sig.kwargDefaultMap.bind (·[i]?)).join.isNone) sig.kwStart 0 (sig.kwargs.getD [])
  if missingPos ++ missingArgs ≠ [] then
    .error (.missingPositional func.name (missingPos ++ missingArgs))
  else if missingKwonly ≠ [] then .error (.missingKwonly func.name missingKwonly)
  else .ok ()

/-- The keywords that were collected are in the last slot. -/
def insertKwargs (state : KeywordState α) (slots : List (Slot α)) : List (Slot α) :=
  match state.excess with
  | some excess => slots.set (slots.length - 1) (some (.dict excess))
  | none => slots

/-- The algorithm for signatures and arguments of all kinds. Keywords are bound before it is said
that there are too many positional values. The slots are the part of the namespace that the call
adds. -/
def bindGeneral (memory : Memory) (func : Identifier) (defaults : List α) (pos : List α)
    (keywords : List (Key × α)) : Except BindError (List (Slot α)) := do
  let slots ← sig.bindPositional memory pos
  let state ← keywords.foldlM (sig.bindKeyword memory func)
    { slots := slots, excess := if sig.varKwargs.isSome then some [] else none }
  sig.checkOverflow func pos.length state.slots
  let slots ← sig.applyAllDefaults defaults state.slots
  sig.checkMissing func slots
  pure (insertKwargs state slots)

/-- The wrong number of positional values for the fast path: parameters are missing, or there are
too many values. -/
def wrongArgCountError (actual : Nat) : Raised :=
  { error :=
      if actual < sig.requiredPositionalCount then
        .missingPositional func.name ((sig.paramNames.take sig.requiredPositionalCount).drop actual)
      else .tooManyPositional func.name sig.requiredPositionalCount sig.paramCount actual 0
    position := some func.position }

/-- No keywords, and parameters that may all be given by position. -/
def bindFast (defaults : List α) (pos : List α) : Except Raised (List (Slot α)) := do
  let slots : List (Slot α) := pos.map fun v => some (.value v)
  if pos.length = sig.paramCount then pure slots
  else if sig.bindMode = .simpleWithDefaults ∧ sig.requiredPositionalCount ≤ pos.length ∧
      pos.length < sig.paramCount then
    let needed := sig.paramCount - pos.length
    let start := sig.argDefaultsCount - needed
    let values ← ((List.range needed).mapM fun i => index defaults (start + i)).mapError (⟨·, none⟩)
    pure (slots ++ values.map fun v => some (.value v))
  else .error (sig.wrongArgCountError func pos.length)

def bind (memory : Memory) (args : ArgValues α) (defaults : List α) (func : Identifier)
    (ns : List (Slot α)) : Except Raised (List (Slot α)) := do
  let (pos, keywords) := args.intoParts
  if keywords.length = 0 ∧ sig.bindMode ≠ .complex then
    let slots ← sig.bindFast func defaults pos
    pure (ns ++ slots)
  else
    let slots ← (sig.bindGeneral memory func defaults pos keywords).mapError (⟨·, none⟩)
    pure (ns ++ slots)

end Signature

/-! ## How signatures are made -/

/-- A parameter, with the value of its default. -/
structure ParsedParam (α : Type) where
  name : String
  default : Option α

/-- The parameters of a function. Names are distinct, and after a parameter with a default come only
such parameters, keyword-only ones aside. -/
structure ParsedSignature (α : Type) where
  posArgs : List (ParsedParam α)
  args : List (ParsedParam α)
  varArgs : Option String
  kwargs : List (ParsedParam α)
  varKwargs : Option String
  nodup : (posArgs.map ParsedParam.name ++ args.map ParsedParam.name ++ varArgs.toList ++
    kwargs.map ParsedParam.name ++ varKwargs.toList).Nodup
  trailing : (posArgs ++ args).Pairwise fun p q => p.default.isSome → q.default.isSome

/-- The number of the default of each parameter, counted from `next`. -/
def kwargDefaultMap (next : Nat) : List (ParsedParam α) → List (Option Nat)
  | [] => []
  | p :: params =>
    if p.default.isSome then some next :: kwargDefaultMap (next + 1) params
    else none :: kwargDefaultMap next params

namespace ParsedSignature

variable (sig : ParsedSignature α)

def signature : Signature :=
  .new (sig.posArgs.map ParsedParam.name) (sig.posArgs.filter (·.default.isSome)).length
    (sig.args.map ParsedParam.name) (sig.args.filter (·.default.isSome)).length sig.varArgs
    (sig.kwargs.map ParsedParam.name) (kwargDefaultMap 0 sig.kwargs) sig.varKwargs

/-- The values of the defaults, evaluated when the function is defined. -/
def defaults : List α :=
  sig.posArgs.filterMap ParsedParam.default ++ sig.args.filterMap ParsedParam.default ++
    sig.kwargs.filterMap ParsedParam.default

end ParsedSignature

end Monty.Call
