import LineBasic.Token.Basic
import LineBasic.Tree.Variable

/-!
The tree of a program and the tables its nodes refer to.
-/

namespace LineBasic

/-- A literal value. Strings keep their quotes and negative numbers their sign; `label` names the
string in the data section. -/
structure Literal where
  text : String
  type : ValueType
  label : Option String := none
deriving DecidableEq, Inhabited

/-- The characters between the quotes, or the whole text if it is not quoted. -/
def Literal.content (literal : Literal) : String :=
  match literal.text.toList with
  | '"' :: rest =>
    if rest.getLast? = some '"' then String.ofList rest.dropLast else literal.text
  | _ => literal.text

/-- What a node stands for. `vars` are the numbers of the variables a scope owns, in the order of
their declarations. The children are

* of `assign`: the variable and its value;
* of `reference`: one index per dimension;
* of `operator`: its two operands;
* of `loop`: the first assignment, the limit, the step and the body;
* of `branch`: the comparison, the block taken if it holds, and the other block if there is one;
* of `print` and `read`: the format and the arguments;
* of `println`: the format and the variable, if there is one;
* of `program` and `block`: the statements. -/
inductive NodeKind where
  | program (vars : List Nat)
  | block (vars : List Nat)
  | assign
  | reference (number : Nat)
  | literal (value : Literal)
  | operator (operator : Operator) (type : Option ValueType)
  | loop
  | branch
  | goto (target : Nat)
  | print
  | println
  | read
deriving DecidableEq, Inhabited

namespace NodeKind

def name : NodeKind → String
  | program _ => "program"
  | block _ => "subroutine"
  | assign => "assign"
  | reference _ => "variable"
  | literal _ => "literal"
  | operator _ _ => "operator"
  | loop => "for"
  | branch => "if"
  | goto _ => "goto"
  | print => "print"
  | println => "println"
  | read => "read"

def vars? : NodeKind → Option (List Nat)
  | program vars | block vars => some vars
  | _ => none

/-- The type of an expression, as far as it is known. -/
def type? (symbols : Array Variable) : NodeKind → Option ValueType
  | literal value => some value.type
  | reference number => symbols[number]?.bind Variable.type
  | operator _ type => type
  | _ => none

end NodeKind

/-- A node with everything below it. `line` is the number of the statement it comes from. -/
structure Node where
  id : Nat
  line : Nat
  kind : NodeKind
  children : List Node
deriving Inhabited

/-- A node without its subtrees: its parent and its children are given by number. -/
structure Link where
  kind : NodeKind
  line : Nat
  parent : Option Nat := none
  children : List Nat := []
deriving DecidableEq, Inhabited

namespace Node

mutual

/-- The nodes of a subtree by number, a node before its children. -/
def links (parent : Option Nat) : Node → List (Nat × Link)
  | ⟨id, line, kind, children⟩ =>
    (id, ⟨kind, line, parent, children.map Node.id⟩) :: linksAll (some id) children

def linksAll (parent : Option Nat) : List Node → List (Nat × Link)
  | [] => []
  | node :: nodes => links parent node ++ linksAll parent nodes

end

end Node

/-- A program: its tree, its variables by number, and its string literals in the order of their
labels. `size` is the number of nodes. -/
structure Program where
  root : Node := ⟨0, 0, .program [], []⟩
  size : Nat := 1
  symbols : Array Variable := #[]
  strings : Array Literal := #[]
deriving Inhabited

/-- The nodes of the program in ascending order of their numbers. -/
def Program.links (program : Program) : List (Nat × Link) :=
  (program.root.links none).mergeSort fun a b => a.1 ≤ b.1

end LineBasic
