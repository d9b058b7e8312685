import LineBasic.Proofs.Tree.Nodes

/-!
How the types of variables become known, by a walk through a tree in the order of its children.
-/

namespace LineBasic

open List

/-- What is known of the types of variables, by number. -/
abbrev Types := Nat → Option ValueType

namespace Types

def none : Types :=
  fun _ => Option.none

/-- A variable is given a type, unless it has one. -/
def learn (types : Types) (number : Nat) (type : Option ValueType) : Types :=
  fun n => if n = number then (types n).or type else types n

/-- What is known in the first is known in the second. -/
def Le (types others : Types) : Prop :=
  ∀ n type, types n = some type → others n = some type

/-- The types that the symbols of a program have. -/
def ofSymbols (symbols : Array Variable) : Types :=
  fun n => symbols[n]?.bind Variable.type

variable {types others more : Types} {number : Nat} {type : Option ValueType}

theorem Le.refl (types : Types) : Le types types :=
  fun _ _ h => h

theorem Le.trans (first : Le types others) (second : Le others more) : Le types more :=
  fun n type h => second n type (first n type h)

theorem le_learn (types : Types) (number : Nat) (type : Option ValueType) :
    Le types (types.learn number type) := by
  intro n known h
  unfold learn
  split
  · rw [h]
    rfl
  · exact h

end Types

/-- The type of an operation on operands of which a type may not be known: an integer decides. -/
def ValueType.combine? : Option ValueType → Option ValueType → Option ValueType
  | some lhs, some rhs => lhs.resolve? rhs
  | some .int, none | none, some .int => some .int
  | _, _ => none

namespace NodeKind

/-- The type of an expression by what is known of its variables. -/
def typeBy? (types : Types) : NodeKind → Option ValueType
  | literal value => some value.type
  | reference number => types number
  | operator _ type => type
  | _ => none

theorem type?_eq (symbols : Array Variable) (kind : NodeKind) :
    kind.type? symbols = kind.typeBy? (.ofSymbols symbols) := by
  cases kind <;> rfl

/-- Whether a statement reads into the variables below it. -/
def reads : NodeKind → Bool
  | read => true
  | _ => false

/-- What is known after a node: a variable that is read into is an integer. -/
def after (reads : Bool) (kind : NodeKind) (types : Types) : Types :=
  match reads, kind with
  | true, reference number => types.learn number (some .int)
  | _, _ => types

/-- What is known after the children of a node: a variable that is assigned to has the type of its
value. -/
def last (kind : NodeKind) (children : List Node) (types : Types) : Types :=
  match kind, children with
  | assign, [⟨_, _, reference number, _⟩, value] => types.learn number (value.kind.typeBy? types)
  | _, _ => types

end NodeKind

namespace Node

mutual

/-- What is known of the types after a subtree. -/
def learned (types : Types) : Node → Types
  | ⟨_, _, kind, children⟩ => kind.last children (learnedAll kind.reads types children)

/-- What is known after some nodes, which may be read into. -/
def learnedAll (reads : Bool) (types : Types) : List Node → Types
  | [] => types
  | node :: nodes => learnedAll reads (node.kind.after reads (learned types node)) nodes

end

/-- A node at its time: `types` is what is known when its children have been walked. -/
structure Stage where
  types : Types
  node : Node

mutual

/-- The nodes of a tree, each at its time. -/
def stages (types : Types) : Node → List Stage
  | ⟨id, line, kind, children⟩ =>
    ⟨learnedAll kind.reads types children, ⟨id, line, kind, children⟩⟩ ::
      stagesAll kind.reads types children

def stagesAll (reads : Bool) (types : Types) : List Node → List Stage
  | [] => []
  | node :: nodes =>
    stages types node ++ stagesAll reads (node.kind.after reads (learned types node)) nodes

end

/-- A node fits what is known at its time. An operator has the type that its operands give it, an
assignment is to a variable of the value's type, and the format of `PRINTLN` is that of its variable. -/
structure Stage.Fits (stage : Stage) : Prop where
  operator : ∀ op type lhs rhs, stage.node.kind = .operator op type →
    stage.node.children = [lhs, rhs] →
    type = ValueType.combine? (lhs.kind.typeBy? stage.types) (rhs.kind.typeBy? stage.types) ∧
      (lhs.kind.typeBy? stage.types ≠ none → rhs.kind.typeBy? stage.types ≠ none → type ≠ none)
  assign : ∀ target value, stage.node.kind = .assign → stage.node.children = [target, value] →
    ∀ type found, target.kind.typeBy? stage.types = some type →
      value.kind.typeBy? stage.types = some found → type = found
  println : ∀ format argument, stage.node.kind = .println →
    stage.node.children = [format, argument] →
    ∃ literal, format.kind = .literal literal ∧ literal.text =
      if argument.kind.typeBy? stage.types = some .string then "\"%s\\n\"" else "\"%d\\n\""

/-- Nodes that fit what is known at each time lead from what is known before them to what is known
after them. -/
structure Leads (before : Types) (reads : Bool) (nodes : List Node) (later : Types) : Prop where
  learned : learnedAll reads before nodes = later
  stages : ∀ stage ∈ stagesAll reads before nodes, stage.Fits

section Walk

variable {types before later final : Types} {reads : Bool} {id line : Nat} {kind : NodeKind}
  {node : Node} {nodes others : List Node}

theorem learned_mk : learned types ⟨id, line, kind, nodes⟩ =
    kind.last nodes (learnedAll kind.reads types nodes) := by
  rw [learned]

@[simp] theorem learnedAll_nil : learnedAll reads types [] = types := by
  rw [learnedAll]

@[simp] theorem learnedAll_cons : learnedAll reads types (node :: nodes) =
    learnedAll reads (node.kind.after reads (learned types node)) nodes := by
  rw [learnedAll]

theorem stages_mk : stages types ⟨id, line, kind, nodes⟩ =
    ⟨learnedAll kind.reads types nodes, ⟨id, line, kind, nodes⟩⟩ ::
      stagesAll kind.reads types nodes := by
  rw [stages]

@[simp] theorem stagesAll_nil : stagesAll reads types [] = [] := by
  rw [stagesAll]

@[simp] theorem stagesAll_cons : stagesAll reads types (node :: nodes) =
    stages types node ++ stagesAll reads (node.kind.after reads (learned types node)) nodes := by
  rw [stagesAll]

theorem learnedAll_append : learnedAll reads types (nodes ++ others) =
    learnedAll reads (learnedAll reads types nodes) others := by
  induction nodes generalizing types with
  | nil => simp
  | cons node nodes ih => simp [ih]

theorem stagesAll_append : stagesAll reads types (nodes ++ others) =
    stagesAll reads types nodes ++ stagesAll reads (learnedAll reads types nodes) others := by
  induction nodes generalizing types with
  | nil => simp
  | cons node nodes ih => simp [ih]

namespace Leads

theorem nil : Leads types reads [] types :=
  ⟨by simp, by simp⟩

theorem append (first : Leads before reads nodes types) (second : Leads types reads others later) :
    Leads before reads (nodes ++ others) later where
  learned := by rw [learnedAll_append, first.learned, second.learned]
  stages stage mem := by
    rw [stagesAll_append, first.learned] at mem
    rcases mem_append.mp mem with mem | mem
    · exact first.stages stage mem
    · exact second.stages stage mem

theorem parent (below : Leads before kind.reads nodes types)
    (fits : Stage.Fits ⟨types, ⟨id, line, kind, nodes⟩⟩)
    (last : kind.after reads (kind.last nodes types) = later) :
    Leads before reads [⟨id, line, kind, nodes⟩] later where
  learned := by
    rw [learnedAll_cons, learnedAll_nil, learned_mk, below.learned]
    exact last
  stages stage mem := by
    rw [stagesAll_cons, stagesAll_nil, append_nil, stages_mk, below.learned] at mem
    rcases mem_cons.mp mem with rfl | mem
    · exact fits
    · exact below.stages stage mem

end Leads

/-! What is known stays known. -/

theorem le_after (reads : Bool) (kind : NodeKind) (types : Types) :
    types.Le (kind.after reads types) := by
  unfold NodeKind.after
  split
  · exact Types.le_learn types _ _
  · exact .refl types

theorem le_last (kind : NodeKind) (nodes : List Node) (types : Types) :
    types.Le (kind.last nodes types) := by
  unfold NodeKind.last
  split
  · exact Types.le_learn types _ _
  · exact .refl types

mutual

theorem le_learned (types : Types) : (node : Node) → types.Le (learned types node)
  | ⟨_, _, kind, children⟩ => by
    rw [learned_mk]
    exact (le_learnedAll kind.reads types children).trans (le_last kind children _)

theorem le_learnedAll (reads : Bool) (types : Types) :
    (nodes : List Node) → types.Le (learnedAll reads types nodes)
  | [] => by
    rw [learnedAll_nil]
    exact .refl types
  | node :: nodes => by
    rw [learnedAll_cons]
    exact ((le_learned types node).trans (le_after reads node.kind _)).trans
      (le_learnedAll reads _ nodes)

end

mutual

theorem le_of_mem_stages {stage : Stage} (types : Types) : (node : Node) →
    stage ∈ stages types node → stage.types.Le (learned types node)
  | ⟨_, _, kind, children⟩, mem => by
    rw [learned_mk]
    rw [stages_mk] at mem
    refine Types.Le.trans ?_ (le_last kind children _)
    rcases mem_cons.mp mem with rfl | mem
    · exact .refl _
    · exact le_of_mem_stagesAll kind.reads types children mem

theorem le_of_mem_stagesAll {stage : Stage} (reads : Bool) (types : Types) : (nodes : List Node) →
    stage ∈ stagesAll reads types nodes → stage.types.Le (learnedAll reads types nodes)
  | [], mem => by simp at mem
  | node :: nodes, mem => by
    rw [learnedAll_cons]
    rw [stagesAll_cons] at mem
    rcases mem_append.mp mem with mem | mem
    · exact ((le_of_mem_stages types node mem).trans (le_after reads node.kind _)).trans
        (le_learnedAll reads _ nodes)
    · exact le_of_mem_stagesAll reads _ nodes mem

end

mutual

theorem map_node_stages (types : Types) : (node : Node) →
    (stages types node).map Stage.node = node.nodes
  | ⟨_, _, kind, children⟩ => by
    rw [stages_mk, map_cons, map_node_stagesAll kind.reads types children, nodes_eq]

theorem map_node_stagesAll (reads : Bool) (types : Types) : (nodes : List Node) →
    (stagesAll reads types nodes).map Stage.node = nodesAll nodes
  | [] => by simp
  | node :: nodes => by
    rw [stagesAll_cons, map_append, map_node_stages types node,
      map_node_stagesAll reads _ nodes, nodesAll_cons]

end

/-- A subtree from which nothing is learned, and which fits what is known. -/
def Settled (types : Types) (node : Node) : Prop :=
  Leads types false [node] types

theorem Leads.of_settled (h : ∀ node ∈ nodes, Settled types node) :
    Leads types false nodes types := by
  induction nodes with
  | nil => exact .nil
  | cons node nodes ih =>
    exact (h node (mem_cons_self ..)).append
      (ih fun other mem => h other (mem_cons_of_mem _ mem))

theorem settled_mk (below : ∀ node ∈ nodes, Settled types node)
    (fits : Stage.Fits ⟨types, ⟨id, line, kind, nodes⟩⟩) (reads : kind.reads = false)
    (last : kind.last nodes types = types) : Settled types ⟨id, line, kind, nodes⟩ :=
  .parent (by rw [reads]; exact .of_settled below) fits last

end Walk

end Node

end LineBasic
