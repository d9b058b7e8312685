import LineBasic.Parse.Expression
import LineBasic.Tree.Shape

/-!
Array declarations and the nested lists that give arrays their first values.
-/

namespace LineBasic

/-- A place in a nested list: the number of open braces, and for each dimension the index of the
element that comes next. -/
structure Place where
  index : List Nat
  depth : Nat

namespace Place

def start (dims : List Nat) : Place :=
  ⟨List.replicate dims.length 0, 0⟩

/-- Whether there is a dimension for the innermost open brace. -/
def fits (place : Place) : Bool :=
  place.depth ≤ place.index.length

/-- Behind an opening brace: its dimension and all inner ones start anew. -/
def enter (place : Place) : Place where
  index := place.index.take place.depth ++
    List.replicate (place.index.length - place.depth) 0
  depth := place.depth + 1

/-- Behind a comma: one further in the dimension of the innermost open brace. -/
def advance (place : Place) : Place :=
  { place with index := place.index.modify (place.depth - 1) (· + 1) }

def leave (place : Place) : Place :=
  { place with depth := place.depth - 1 }

end Place

/-- The assignment of a first value to the element at `index`. -/
def Check.element (number : Nat) (name : Token) (index : List Nat) (token : Token)
    (kind : LiteralKind) (negative : Bool) : Check Unit := do
  let value ← literal token kind negative
  let dims := ((← get).symbols[number]?.map Variable.dims).getD []
  if (Shape.offset? dims index).isNone then
    reportAt token (.elementOutside index name.text)
  else
    let id ← fresh
    let indices ← index.mapM fun i => literalNode (toString i) .int
    let target : Node := ⟨id, (← get).line, .reference number, indices⟩
    attach (← assignment name target value)

namespace Parse

/-- Behind an opening brace, which must not be nested deeper than the array has dimensions. -/
def enterBrace (name : Token) (place : Place) : Parse Place := do
  let place := place.enter
  if !place.fits then
    Check.reportAt name (.initializerTooDeep name.text place.index.length)
  return place

/-- The values up to the brace that closes the first one. Each round reads a token. -/
def elements (number : Nat) (name : Token) : Nat → Place → Parse Unit
  | 0, place => if place.depth = 0 then return () else failHere .endOfSource
  | bound + 1, place => do
    if place.depth = 0 then
      return ()
    let token ← advance
    match token.kind with
    | .separator .leftBrace => elements number name bound (← enterBrace name place)
    | .separator .rightBrace => elements number name bound place.leave
    | .separator .comma => elements number name bound place.advance
    | .operator .minus =>
      let digits ← advance
      match digits.kind with
      | .literal .integer => Check.element number name place.index digits .integer true
      | .literal .decimal => Check.element number name place.index digits .decimal true
      | kind => Check.failAt digits (.numberExpected kind)
      elements number name bound place
    | .literal kind =>
      Check.element number name place.index token kind false
      elements number name bound place
    | kind => Check.failAt token (.elementExpected kind)

def initializer (number : Nat) (name : Token) : Parse Unit := do
  let dims := ((← getThe Env).symbols[number]?.map Variable.dims).getD []
  let _ ← expect (.separator .leftBrace)
  let place ← enterBrace name (.start dims)
  elements number name (← get).rest.length place

/-- One dimension between brackets, if a bracket follows. It counts in 64 bits. -/
def dimension (name : Token) : Parse (Option Nat) := do
  if ← accept (.separator .leftBracket) then
    let size ← expect (.literal .integer)
    let _ ← expect (.separator .rightBracket)
    match (Text.natural? size.text.toList).filter fun n => 0 < n ∧ n < 0x10000000000000000 with
    | some n => return some n
    | none =>
      Check.reportAt size (.dimensionNotPositive name.text size.text)
      return some 1
  else
    return none

/-- `DIM name[size]... [= {...}]`, after the keyword. -/
def declaration : Parse Unit := do
  let name ← expect .identifier
  let dims ← many (dimension name)
  let env ← getThe Env
  if (env.lookup? env.current name.text).isSome then
    Check.reportAt name (.alreadyDeclared name.text)
  let dims ← if (Shape.size? dims).isSome then pure dims else do
    Check.reportAt name (.arrayTooLarge name.text)
    pure (dims.map fun _ => 1)
  let number ← Check.declare name.text dims
  let env ← getThe Env
  if let some v := env.symbols[number]? then
    Check.record (.declared env.line v)
  let assigned ← accept (.operator .equal)
  if assigned || (← peekKind?) = some (.separator .leftBrace) then
    initializer number name

end Parse

end LineBasic
