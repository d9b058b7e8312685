import LineBasic.Proofs.Lower.Reuse
import LineBasic.Proofs.Semantics.Expressions
import LineBasic.Proofs.Token.Quoted

/-!
Code for the expressions of an accepted program.
-/

namespace LineBasic

open List Machine Lower
open Node (IsExpression IsFormat IsReference IsSimple IsStatement)

/-- The kinds of the nodes that have a value. -/
def NodeKind.evaluates : NodeKind → Bool
  | .literal _ | .reference _ => true
  | .operator op _ => op.isArithmetic
  | _ => false

section Surroundings

variable {symbols table : Array Variable} {strings : Array Literal} {visible vars : List Nat}
  {outer node child : Node} {nodes : List Node}

theorem evaluates_of_succeeds (h : (expression table node).Succeeds) : node.kind.evaluates := by
  obtain ⟨id, line, kind, nodes⟩ := node
  obtain ⟨_, done⟩ := h
  cases kind with
  | literal | reference => rfl
  | operator operator type =>
    obtain rfl | rfl | ⟨noFloat, noText⟩ := float_or_text_or type
    · rw [expression] at done
      cases done
    · rw [expression] at done
      cases done
    · rcases nodes with _ | ⟨lhs, _ | ⟨rhs, _ | ⟨third, rest⟩⟩⟩
      case cons.cons.nil =>
        rw [expression_operation noFloat noText] at done
        obtain ⟨_, _, succeeds⟩ := Lowered.succeeds_bind.mp ⟨_, done⟩
        obtain ⟨_, _, _, done⟩ := Lowered.succeeds_bind.mp succeeds
        cases operator with
        | plus | minus | star | slash | caret => rfl
        | _ => cases done
      all_goals
        rw [expression] at done
        · cases done
        all_goals simp_all
  | _ =>
    rw [expression] at done
    · cases done
    all_goals simp

theorem isExpression_evaluates (h : IsExpression symbols strings visible node) : node.kind.evaluates := by
  cases h with
  | operation arithmetic => exact arithmetic
  | _ => rfl

theorem isExpression_of_mem (h : IsExpression symbols strings visible outer)
    (mem : node ∈ outer.nodes) : IsExpression symbols strings visible node := by
  induction h with
  | integer number =>
    cases (Node.mem_nodes.mp mem).resolve_right (by simp)
    exact .integer number
  | decimal =>
    cases (Node.mem_nodes.mp mem).resolve_right (by simp)
    exact .decimal
  | text found isText =>
    cases (Node.mem_nodes.mp mem).resolve_right (by simp)
    exact .text found isText
  | reference inside found length isIndex ih =>
    rcases Node.mem_nodes.mp mem with rfl | ⟨index, isIn, mem⟩
    · exact .reference inside found length isIndex
    · exact ih index isIn mem
  | operation arithmetic isLhs isRhs ihl ihr =>
    rcases Node.mem_nodes.mp mem with rfl | ⟨operand, isIn, below⟩
    · exact .operation arithmetic isLhs isRhs
    · rcases mem_pair.mp isIn with rfl | rfl
      · exact ihl below
      · exact ihr below

/-- A node below `outer`, if it has a value at all, is an expression over the variables in `visible`
and those of the scopes between. -/
def Sees (symbols : Array Variable) (strings : Array Literal) (visible : List Nat)
    (outer : Node) : Prop :=
  ∀ node ∈ outer.nodes, node.kind.evaluates →
    ∃ inner, IsExpression symbols strings (inner ++ visible) node ∧ ∀ n ∈ inner,
      ∃ block ∈ outer.nodes, node ∈ block.nodes ∧ n ∈ block.kind.vars?.getD []

theorem sees_expression (h : IsExpression symbols strings visible outer) :
    Sees symbols strings visible outer :=
  fun _ mem _ => ⟨[], isExpression_of_mem h mem, by simp⟩

theorem sees_format (h : IsFormat strings outer) : Sees symbols strings visible outer := by
  obtain ⟨id, line, i, literal, found, isText, rfl⟩ := h
  exact sees_expression (.text found isText)

theorem sees_node {id line : Nat} {kind : NodeKind} (other : kind.evaluates = false)
    (h : ∀ child ∈ nodes, Sees symbols strings visible child) :
    Sees symbols strings visible ⟨id, line, kind, nodes⟩ := by
  intro node mem evaluates
  rcases Node.mem_nodes.mp mem with rfl | ⟨child, isIn, mem⟩
  · rw [other] at evaluates
    cases evaluates
  · obtain ⟨inner, isExpression, owned⟩ := h child isIn node mem evaluates
    refine ⟨inner, isExpression, fun n isInner => ?_⟩
    obtain ⟨block, below, around⟩ := owned n isInner
    exact ⟨block, Node.mem_nodes.mpr (.inr ⟨child, isIn, below⟩), around⟩

theorem sees_scope {id line : Nat} {kind : NodeKind} (scope : kind.vars? = some vars)
    (h : ∀ child ∈ nodes, Sees symbols strings (vars ++ visible) child) :
    Sees symbols strings visible ⟨id, line, kind, nodes⟩ := by
  have other : kind.evaluates = false := by
    cases kind <;> first | rfl | cases scope
  intro node mem evaluates
  obtain ⟨inner, isExpression, owned⟩ := sees_node other h node mem evaluates
  refine ⟨inner ++ vars, append_assoc .. ▸ isExpression, fun n isIn => ?_⟩
  rcases mem_append.mp isIn with isIn | isIn
  · exact owned n isIn
  · exact ⟨_, Node.mem_nodes.mpr (.inl rfl), mem, by rw [scope]; exact isIn⟩

theorem sees_simple (h : IsSimple symbols strings visible outer) :
    Sees symbols strings visible outer := by
  cases h with
  | assign isTarget isValue =>
    refine sees_node rfl fun child mem => ?_
    rcases mem_pair.mp mem with rfl | rfl
    · exact sees_expression isTarget.1
    · exact sees_expression isValue
  | goto => exact sees_node rfl (by simp)
  | print isFormat isArgument =>
    exact sees_node rfl (forall_mem_cons.mpr ⟨sees_format isFormat, fun child mem =>
      sees_expression (isArgument child mem)⟩)
  | println isFormat isArgument =>
    exact sees_node rfl (forall_mem_cons.mpr ⟨sees_format isFormat, fun child mem =>
      sees_expression (isArgument child (by simpa using mem)).1⟩)
  | read isFormat isTarget =>
    exact sees_node rfl (forall_mem_cons.mpr ⟨sees_format isFormat, fun child mem =>
      sees_expression (isTarget child mem).1⟩)

theorem sees_comparison (h : Node.IsComparison symbols strings visible outer) :
    Sees symbols strings visible outer := by
  obtain ⟨id, line, operator, type, lhs, rhs, compares, isLhs, isRhs, rfl⟩ := h
  have other : (NodeKind.operator operator type).evaluates = false := by
    simpa [NodeKind.evaluates, Operator.isComparator] using compares
  refine sees_node other fun child mem => ?_
  rcases mem_pair.mp mem with rfl | rfl
  · exact sees_expression isLhs
  · exact sees_expression isRhs

theorem sees_statement (h : IsStatement symbols strings visible outer) :
    Sees symbols strings visible outer := by
  induction h with
  | simple isSimple => exact sees_simple isSimple
  | loop isStart isLimit isStep _ ih =>
    obtain ⟨id, line, counter, value, isCounter, _, isValue, rfl⟩ := isStart
    refine sees_node rfl (forall_mem_cons.mpr ⟨sees_simple (.assign isCounter isValue), ?_⟩)
    refine forall_mem_cons.mpr ⟨sees_expression isLimit, ?_⟩
    exact forall_mem_cons.mpr ⟨sees_expression isStep, by simpa using sees_scope rfl ih⟩
  | branch isComparison _ ih =>
    exact sees_node rfl (forall_mem_cons.mpr ⟨sees_comparison isComparison,
      by simpa using sees_scope rfl ih⟩)
  | branchElse isComparison _ _ ih ih' =>
    exact sees_node rfl (forall_mem_cons.mpr ⟨sees_comparison isComparison,
      forall_mem_cons.mpr ⟨sees_scope rfl ih, by simpa using sees_scope rfl ih'⟩⟩)

theorem Program.WellFormed.sees {program : Program} (h : program.WellFormed) :
    Sees program.symbols program.strings [] program.root := by
  obtain ⟨vars, scope⟩ := h.isProgram
  have statements := h.statements
  rw [Program.vars, scope] at statements
  obtain ⟨⟨id, line, kind, children⟩, size, symbols, strings⟩ := program
  cases scope
  refine sees_scope rfl fun child mem => ?_
  rw [append_nil]
  exact sees_statement (statements child mem)

end Surroundings

section Code

variable {program : Program} {generator : Generator} {image : Image} {s : State} {node : Node}

/-- The storage of the scopes around a node is not below the top of the stack. -/
def Program.Clears (program : Program) (table : Array Variable) (node : Node) (s : State) : Prop :=
  ∀ block ∈ program.root.nodes, node ∈ block.nodes → ∀ n ∈ block.kind.vars?.getD [], ∀ v address,
    table[n]? = some v → v.address = some address →
      (s.reg .esp).toInt + address ≤ (s.reg .ebp).toInt

theorem extends_compile (program : Program) (generator : Generator) :
    Node.Extends program.symbols (generator.compile program).symbols program.strings program.strings := by
  refine ⟨fun n v found => ?_, fun _ _ => id⟩
  have same := congrArg (·[n]?) (generator.places_compile program).same
  simp only [withoutAddresses, Array.getElem?_map, found, Option.map_some,
    Option.map_eq_some_iff] at same
  obtain ⟨v', found', eq⟩ := same
  exact ⟨v', found', (Variable.mk.inj eq).2.1⟩

theorem exists_visible (h : program.WellFormed) (mem : node ∈ program.root.nodes)
    (evaluates : node.kind.evaluates)
    (clears : program.Clears (generator.compile program).symbols node s) :
    ∃ visible, IsExpression (generator.compile program).symbols program.strings visible node ∧
      Above (generator.compile program).symbols visible s := by
  obtain ⟨inner, isExpression, owned⟩ := h.sees node mem evaluates
  refine ⟨inner ++ [], isExpression.mono (extends_compile program generator) (Subset.refl _), ?_⟩
  intro n isIn v address k found place inside
  obtain ⟨block, isBlock, around, isOwn⟩ := owned n (by simpa using isIn)
  have low := clears block isBlock around n isOwn v address found place
  have least := Int32.le_toInt (s.reg .esp)
  rcases (generator.places_compile program).fits n v address found place with before | ⟨fits, _⟩
  · rw [(h.declared n v before).address] at place
    cases place
  · rw [toInt_elementAt (by omega) (by omega)]
    omega

end Code

end LineBasic
