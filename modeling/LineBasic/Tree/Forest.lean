import LineBasic.Diagnostic.Basic
import LineBasic.Tree.Node

/-!
Trees built by hand: nodes are made on their own and linked afterwards, by number.
-/

namespace LineBasic

/-- `strings` are the numbers of the nodes that were given a label. -/
structure Forest where
  nodes : Array Link := #[⟨.program [], 0, none, []⟩]
  symbols : Array Variable := #[]
  strings : Array Nat := #[]

namespace Forest

def size (forest : Forest) : Nat :=
  forest.nodes.size

/-- Makes a node that is linked to no other, and gives it the next number. -/
def add (forest : Forest) (kind : NodeKind) (line : Nat) : Nat × Forest :=
  (forest.size, { forest with nodes := forest.nodes.push ⟨kind, line, none, []⟩ })

def setParent (forest : Forest) (node : Nat) (parent : Option Nat) : Forest :=
  { forest with nodes := forest.nodes.modify node ({ · with parent }) }

def updateChildren (forest : Forest) (node : Nat) (update : List Nat → List Nat) : Forest :=
  { forest with nodes := forest.nodes.modify node fun link =>
      { link with children := update link.children } }

def attach (forest : Forest) (parent child : Nat) : Forest :=
  (forest.setParent child (some parent)).updateChildren parent (· ++ [child])

/-- Puts `between` into the place that `node` has below its parent, and `node` below `between` as
its last child. -/
def insertParent (forest : Forest) (node between : Nat) : Forest :=
  let forest := match forest.nodes[node]?.bind Link.parent with
    | none => forest
    | some parent =>
      ((forest.updateChildren parent (·.replace node between)).setParent between
        (some parent)).setParent node none
  forest.attach between node

def lookup? (forest : Forest) (scope : Nat) (name : String) : Option Nat := do
  let vars ← (← forest.nodes[scope]?).kind.vars?
  vars.find? fun number => forest.symbols[number]?.any (·.name == name)

/-- Declares a variable in its scope. Only a program and a block can own variables. -/
def declare (forest : Forest) (v : Variable) : Except Diagnostic (Nat × Forest) :=
  let number := forest.symbols.size
  let declareAs (kind : NodeKind) : Forest :=
    { forest with
      nodes := forest.nodes.modify v.scope ({ · with kind })
      symbols := forest.symbols.push v }
  match forest.nodes[v.scope]?.map Link.kind with
  | some (.program vars) => .ok (number, declareAs (.program (vars ++ [number])))
  | some (.block vars) => .ok (number, declareAs (.block (vars ++ [number])))
  | some kind => .error { fault := .semantic (.notAScope kind.name v.name) }
  | none => .error { fault := .semantic (.notAScope "" v.name) }

def setType (forest : Forest) (number : Nat) (type : Option ValueType) : Forest :=
  { forest with symbols := forest.symbols.modify number ({ · with type }) }

/-- Gives the next label to a node; only a literal keeps it. -/
def registerString (forest : Forest) (node : Nat) : String × Forest :=
  let label := s!"LC{forest.strings.size}"
  let labelled (link : Link) : Link :=
    match link.kind with
    | .literal value => { link with kind := .literal { value with label := some label } }
    | _ => link
  (label, { forest with
    nodes := forest.nodes.modify node labelled
    strings := forest.strings.push node })

def type? (forest : Forest) (node : Nat) : Option ValueType :=
  forest.nodes[node]?.bind fun link => link.kind.type? forest.symbols

/-- The literals that were given a label, in the order they were given. -/
def literals (forest : Forest) : Array Literal :=
  forest.strings.filterMap fun node =>
    match forest.nodes[node]?.map Link.kind with
    | some (.literal value) => some value
    | _ => none

/-- The subtree below a node, down to the given depth. -/
def subtree (forest : Forest) : Nat → Nat → Node
  | depth, id =>
    let link := forest.nodes[id]?.getD default
    ⟨id, link.line, link.kind, match depth with
      | 0 => []
      | depth + 1 => link.children.map (forest.subtree depth)⟩

/-- The program below node 0. No path without a repeated node is longer than the number of nodes,
so nothing of a tree is cut off. -/
def program (forest : Forest) : Program where
  root := forest.subtree forest.size 0
  size := forest.size
  symbols := forest.symbols
  strings := forest.literals

def links (forest : Forest) : List (Nat × Link) :=
  forest.nodes.toList.zipIdx.map fun (link, id) => (id, link)

end Forest

end LineBasic
