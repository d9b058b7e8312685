import LineBasic.Machine.Image
import LineBasic.Tree.Node

/-!
What the tree of a program means, without code and without a machine. A run of a tree ends with what
the program has written, or it has no meaning: where a text is taken for a number, where something is
read that was not written since its scope was entered, beyond the end of an array or of the input, at
a division by zero, and where a format does not fit what it is used for.
-/

namespace LineBasic

/-- What an element of a variable holds. -/
inductive Value where
  | int (word : Int32)
  | text (text : String)
deriving DecidableEq

namespace Value

def int? : Value → Option Int32
  | int word => some word
  | text _ => none

def index? (value : Value) : Option Nat :=
  value.int?.bind fun word => if 0 ≤ word then some word.toInt.toNat else none

end Value

/-- The characters that a string literal stands for, if its escapes are known. -/
def Literal.characters? (literal : Literal) : Option (List Char) :=
  (Machine.unescape literal.content.toList).toOption

/-- The value of a literal. Decimal fractions have none. -/
def Literal.value? (literal : Literal) : Option Value :=
  match literal.type with
  | .int => (Text.int32? literal.text.toList).map .int
  | .string => literal.characters?.map fun cs => .text (String.ofList cs)
  | .float => none

namespace Operator

def power (word : Int32) : Nat → Int32
  | 0 => 1
  | n + 1 => power word n * word

/-- The result of an operation on words. It wraps; a quotient is cut off toward zero; an exponent
below one gives one. -/
def result? : Operator → Int32 → Int32 → Option Int32
  | plus, a, b => some (a + b)
  | minus, a, b => some (a - b)
  | star, a, b => some (a * b)
  | slash, a, b => if b = 0 then none else some (a / b)
  | caret, a, b => some (power a b.toInt.toNat)
  | _, _, _ => none

/-- Whether a comparison of words holds. Against the lowest word, `<` and `>=` are not decided. -/
def decide? : Operator → Int32 → Int32 → Option Bool
  | equal, a, b | same, a, b => some (decide (a = b))
  | notEqual, a, b => some (decide (a ≠ b))
  | less, a, b => if b = Int32.minValue then none else some (decide (a < b))
  | lessEqual, a, b => some (decide (a ≤ b))
  | greater, a, b => some (decide (b < a))
  | greaterEqual, a, b => if b = Int32.minValue then none else some (decide (b ≤ a))
  | _, _, _ => none

end Operator

/-- What has been written to each element of each variable. -/
def Store := Nat → Nat → Option Value

namespace Store

def empty : Store := fun _ _ => none

def write (store : Store) (cell : Nat × Nat) (value : Value) : Store := fun n k =>
  if (n, k) = cell then some value else store n k

/-- Words are written one after the other. -/
def writeAll (store : Store) : List (Nat × Nat) → List Int32 → Store
  | cell :: cells, word :: words => (store.write cell (.int word)).writeAll cells words
  | _, _ => store

/-- The variables of a scope hold nothing when it is entered. -/
def forget (store : Store) (vars : List Nat) : Store := fun n k =>
  if n ∈ vars then none else store n k

end Store

/-- What a run has to go on with: its variables, the words still to be read, what it has written. -/
structure World where
  store : Store
  input : List (List Char)
  output : String

/-- What a format and its arguments stand for, with one fitting argument for each place. -/
def printed? : List Char → List Value → Option (List Char)
  | [], [] => some []
  | '%' :: 'd' :: rest, .int word :: values =>
    (printed? rest values).map ((toString word.toInt).toList ++ ·)
  | '%' :: 's' :: rest, .text text :: values => (printed? rest values).map (text.toList ++ ·)
  | '%' :: '%' :: rest, values => (printed? rest values).map ('%' :: ·)
  | '%' :: _, _ => none
  | c :: rest, values => (printed? rest values).map (c :: ·)
  | [], _ :: _ => none

/-- How many numbers a format asks for. -/
def asked (format : List Char) : Nat :=
  (List.range format.length).countP fun i => ['%', 'd'].isPrefixOf (format.drop i)

/-- The next numbers of the input, and what is left of it. -/
def taken? : Nat → List (List Char) → Option (List Int32 × List (List Char))
  | 0, input => some ([], input)
  | _ + 1, [] => none
  | n + 1, word :: input => do
    let value ← Text.int32? word
    let (values, rest) ← taken? n input
    return (value :: values, rest)

namespace Node

def format? (node : Node) : Option (List Char) :=
  match node.kind with
  | .literal literal => literal.characters?
  | _ => none

/-- The element of a variable that has some values as its indices. -/
def element? (symbols : Array Variable) (n : Nat) (values : List Value) : Option Nat := do
  let v ← symbols[n]?
  Shape.offset? v.dims (← values.mapM Value.index?)

mutual

def value? (symbols : Array Variable) (store : Store) : Node → Option Value
  | ⟨_, _, .literal literal, _⟩ => literal.value?
  | ⟨_, _, .reference n, indices⟩ => do
    store n (← element? symbols n (← values? symbols store indices))
  | ⟨_, _, .operator operator _, [lhs, rhs]⟩ => do
    let a ← (← value? symbols store lhs).int?
    let b ← (← value? symbols store rhs).int?
    (operator.result? a b).map .int
  | _ => none

def values? (symbols : Array Variable) (store : Store) : List Node → Option (List Value)
  | [] => some []
  | node :: nodes => do
    let value ← value? symbols store node
    let values ← values? symbols store nodes
    return value :: values

end

/-- The number that an expression gives. -/
def word? (symbols : Array Variable) (store : Store) (node : Node) : Option Int32 := do
  (← value? symbols store node).int?

def cell? (symbols : Array Variable) (store : Store) (node : Node) : Option (Nat × Nat) :=
  match node.kind with
  | .reference n => do return (n, ← element? symbols n (← values? symbols store node.children))
  | _ => none

def holds? (symbols : Array Variable) (store : Store) (node : Node) : Option Bool :=
  match node.kind, node.children with
  | .operator operator _, [lhs, rhs] => do
    operator.decide? (← lhs.word? symbols store) (← rhs.word? symbols store)
  | _, _ => none

end Node

namespace World

variable (symbols : Array Variable)

def assign? (w : World) (target value : Node) : Option World := do
  let value ← value.value? symbols w.store
  let cell ← target.cell? symbols w.store
  return { w with store := w.store.write cell value }

def advance? (w : World) (counter step : Node) : Option World := do
  let cell ← counter.cell? symbols w.store
  let step ← step.word? symbols w.store
  let word ← counter.word? symbols w.store
  return { w with store := w.store.write cell (.int (word + step)) }

def print? (w : World) (format : Node) (arguments : List Node) : Option World := do
  let text ← printed? (← format.format?) (← Node.values? symbols w.store arguments)
  return { w with output := w.output ++ String.ofList text }

/-- All cells are found before the first number is read. -/
def read? (w : World) (format : Node) (targets : List Node) : Option World := do
  let cells ← targets.mapM (·.cell? symbols w.store)
  if asked (← format.format?) = targets.length then
    let (words, rest) ← taken? targets.length w.input
    return { w with store := w.store.writeAll cells words, input := rest }
  else none

/-- A statement without blocks, and the line that it leads to if it is a jump. -/
def simple? (w : World) (node : Node) : Option (World × Option Nat) :=
  match node.kind, node.children with
  | .assign, [target, value] => do return (← w.assign? symbols target value, none)
  | .goto line, _ => some (w, some line)
  | .print, format :: arguments | .println, format :: arguments => do
    return (← w.print? symbols format arguments, none)
  | .read, format :: targets => do return (← w.read? symbols format targets, none)
  | _, _ => none

mutual

/-- Runs a statement. The result names a line if a jump to it has still to be made. -/
def run? : Nat → World → Node → Option (World × Option Nat)
  | 0, _, _ => none
  | fuel + 1, w, ⟨id, line, kind, children⟩ =>
    match kind, children with
    | .loop, [⟨_, _, .assign, [counter, value]⟩, limit, step, body] => do
      rounds? fuel (← w.assign? symbols counter value) counter limit step body
    | .branch, [condition, consequence] => do
      if ← condition.holds? symbols w.store then block? fuel w consequence else return (w, none)
    | .branch, [condition, consequence, alternative] => do
      if ← condition.holds? symbols w.store then block? fuel w consequence
      else block? fuel w alternative
    | _, _ => w.simple? symbols ⟨id, line, kind, children⟩

/-- Runs the body of a loop while the counter is not above the limit. -/
def rounds? : Nat → World → Node → Node → Node → Node → Option (World × Option Nat)
  | 0, _, _, _, _, _ => none
  | fuel + 1, w, counter, limit, step, body => do
    if (← counter.word? symbols w.store) ≤ (← limit.word? symbols w.store) then
      match ← block? fuel w body with
      | (w, some line) => return (w, some line)
      | (w, none) => rounds? fuel (← w.advance? symbols counter step) counter limit step body
    else return (w, none)

/-- Enters a scope and runs its statements. -/
def block? : Nat → World → Node → Option (World × Option Nat)
  | 0, _, _ => none
  | fuel + 1, w, node =>
    statements? fuel { w with store := w.store.forget (node.kind.vars?.getD []) } node.children
      node.children

/-- Runs the rest of the statements of a scope. A jump to a line of the scope goes on there; any other
jump leaves the scope. -/
def statements? : Nat → World → List Node → List Node → Option (World × Option Nat)
  | 0, _, _, _ => none
  | _ + 1, w, _, [] => some (w, none)
  | fuel + 1, w, scope, node :: nodes => do
    match ← run? fuel w node with
    | (w, none) => statements? fuel w scope nodes
    | (w, some line) =>
      match scope.dropWhile (·.line ≠ line) with
      | [] => return (w, some line)
      | nodes => statements? fuel w scope nodes

end

end World

/-- What a program writes if it is given some input. A run takes at most `fuel` steps into the depth
of the tree, from statement to statement and from round to round. -/
def Program.output? (program : Program) (fuel : Nat) (input : String) : Option String :=
  match World.block? program.symbols fuel ⟨.empty, Text.words input.toList, ""⟩ program.root with
  | some (w, none) => some w.output
  | _ => none

end LineBasic
