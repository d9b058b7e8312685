import LineBasic.Proofs.Lower.Pieces
import LineBasic.Proofs.Tree.Sites

/-!
The code of a program as a function of its tree and of the addresses that its variables get.
-/

namespace LineBasic.Lower

open List

def loopStart (line : Nat) : String :=
  s!"FOR_{line}_START"

def loopTest (line : Nat) : String :=
  s!"FOR_{line}_TEST"

def branchElse (line : Nat) : String :=
  s!"IF_{line}_ELSE"

def branchEnd (line : Nat) : String :=
  s!"IF_{line}_END"

theorem isName_loopStart (line : Nat) : IsName (loopStart line) :=
  @isName_tagged "FOR_" "_START" line (by decide) (by decide) ⟨'F', _, rfl, by decide⟩

theorem isName_loopTest (line : Nat) : IsName (loopTest line) :=
  @isName_tagged "FOR_" "_TEST" line (by decide) (by decide) ⟨'F', _, rfl, by decide⟩

theorem isName_branchElse (line : Nat) : IsName (branchElse line) :=
  @isName_tagged "IF_" "_ELSE" line (by decide) (by decide) ⟨'I', _, rfl, by decide⟩

theorem isName_branchEnd (line : Nat) : IsName (branchEnd line) :=
  @isName_tagged "IF_" "_END" line (by decide) (by decide) ⟨'I', _, rfl, by decide⟩

def counterPlace (table : Array Variable) (start step : Node) : Operand :=
  (advance table start step).result.toOption.getD default

def simpleCode (target : Target) (table : Array Variable) (node : Node) : List Instr :=
  match node.kind with
  | .assign => (assignment table node).code
  | .goto goal => [.jmp (lineLabel goal)]
  | .print | .println => (print target table node).code
  | .read => (read target table node).code
  | _ => []

/-- The label of a statement that starts its line. -/
def labelCode (last : Option Nat) (node : Node) : List Instr :=
  if (node.site [] last).starts then [.label (lineLabel node.line)] else []

mutual

/-- The code of a statement, after a statement on line `last`. -/
def statementCode (target : Target) (table : Array Variable) (last : Option Nat) :
    Node → List Instr
  | ⟨id, line, kind, children⟩ =>
    labelCode last ⟨id, line, kind, children⟩ ++ match kind, children with
      | .loop, [start, limit, step, body] =>
        (assignment table start).code ++ [.jmp (loopTest line), .label (loopStart line)] ++
          blockCode target table body ++ (advance table start step).code ++
          [.label (loopTest line)] ++
          (test table limit (counterPlace table start step) (loopStart line)).code
      | .branch, [condition, consequence] =>
        (comparison table condition (branchEnd line)).code ++
          blockCode target table consequence ++ [.jmp (branchEnd line), .label (branchEnd line)]
      | .branch, [condition, consequence, alternative] =>
        (comparison table condition (branchElse line)).code ++
          blockCode target table consequence ++ [.jmp (branchEnd line), .label (branchElse line)] ++
          blockCode target table alternative ++ [.label (branchEnd line)]
      | _, _ => simpleCode target table ⟨id, line, kind, children⟩

def statementsCode (target : Target) (table : Array Variable) (last : Option Nat) :
    List Node → List Instr
  | [] => []
  | node :: nodes =>
    statementCode target table last node ++ statementsCode target table node.lastLine nodes

def blockCode (target : Target) (table : Array Variable) : Node → List Instr
  | ⟨_, _, kind, children⟩ =>
    grow (frameSize table (kind.vars?.getD [])) ++ statementsCode target table none children ++
      shrink (frameSize table (kind.vars?.getD []))

end

theorem statementCode_simple {target : Target} {table : Array Variable} {last : Option Nat}
    {node : Node} (h : node.kind.form = .simple) :
    statementCode target table last node = labelCode last node ++ simpleCode target table node := by
  obtain ⟨id, line, kind, children⟩ := node
  rw [statementCode]
  · rintro _ _ _ _ rfl
    cases h
  · rintro _ _ rfl
    cases h
  · rintro _ _ _ rfl
    cases h

theorem blockCode_block {target : Target} {table : Array Variable} {id line : Nat} {vars : List Nat}
    {nodes : List Node} : blockCode target table ⟨id, line, .block vars, nodes⟩ =
      grow (frameSize table vars) ++ statementsCode target table none nodes ++
        shrink (frameSize table vars) := by
  rw [blockCode]
  rfl

def prologue (target : Target) (size : Nat) : List Instr :=
  [.push (.reg .ebp), .mov (.reg .esp) (.reg .ebp)] ++ grow size ++
    if target = .mingw then [.call "___main"] else []

def programCode (target : Target) (sourceName : Option String) (table : Array Variable)
    (program : Program) : List Instr :=
  header target sourceName program.strings.toList ++
    [.text, .globl (target.symbol "main"), .label (target.symbol "main")] ++
    prologue target (frameSize table (program.root.kind.vars?.getD [])) ++
    statementsCode target table none program.root.children ++
    [.mov (.imm 0) (.reg .eax), .leave, .ret]

section Agree

open Node (IsExpression IsReference IsFormat IsStart IsComparison IsSimple)

variable {symbols table table' : Array Variable} {strings : Array Literal} {visible : List Nat}
  {node : Node} {nodes : List Node} {target : Target}

/-- The tables hold the same for every variable in `visible`. -/
def Agree (visible : List Nat) (table table' : Array Variable) : Prop :=
  ∀ n ∈ visible, table[n]? = table'[n]?

theorem expressions_congr (h : ∀ node ∈ nodes, expression table node = expression table' node) :
    expressions table nodes = expressions table' nodes := by
  induction nodes with
  | nil => rw [expressions, expressions]
  | cons node nodes ih =>
    rw [expressions, expressions, h node (mem_cons_self ..),
      ih fun other mem => h other (mem_cons_of_mem _ mem)]

theorem forM_congr {f g : Node → Lowered Unit} (h : ∀ node ∈ nodes, f node = g node) :
    nodes.forM f = nodes.forM g := by
  induction nodes with
  | nil => rfl
  | cons node nodes ih =>
    show (do f node; nodes.forM f) = (do g node; nodes.forM g)
    rw [h node (mem_cons_self ..), ih fun other mem => h other (mem_cons_of_mem _ mem)]

variable (agree : Agree visible table table')

include agree

theorem expression_congr (h : IsExpression symbols strings visible node) : expression table node = expression table' node := by
  induction h with
  | integer | decimal | text => rw [expression, expression]
  | reference mem _ _ _ ih => rw [expression, expression, agree _ mem, expressions_congr ih]
  | @operation id line operator type lhs rhs arithmetic _ _ ihl ihr =>
    rcases float_or_text_or type with rfl | rfl | ⟨noFloat, noText⟩
    · rw [expression, expression]
    · rw [expression, expression]
    · rw [expression_operation noFloat noText, expression_operation noFloat noText, ihl, ihr]

theorem place_congr (h : IsReference symbols strings visible node) : place table node = place table' node := by
  obtain ⟨isExpression, number, eq⟩ := h
  cases isExpression with
  | reference mem _ _ isIndex =>
    simp only [place, agree _ mem,
      expressions_congr fun index mem => expression_congr agree (isIndex index mem)]
  | _ => cases eq

theorem assignment_congr {id line : Nat} {lhs rhs : Node}
    (isTarget : IsReference symbols strings visible lhs)
    (isValue : IsExpression symbols strings visible rhs) :
    assignment table ⟨id, line, .assign, [lhs, rhs]⟩ =
      assignment table' ⟨id, line, .assign, [lhs, rhs]⟩ := by
  simp only [assignment, operands, pure_bind, place_congr agree isTarget,
    expression_congr agree isValue]

theorem start_congr (h : IsStart symbols strings visible node) :
    assignment table node = assignment table' node := by
  obtain ⟨id, line, counter, value, isCounter, _, isValue, rfl⟩ := h
  exact assignment_congr agree isCounter isValue

theorem print_congr {id line : Nat} {kind : NodeKind} {format : Node}
    (h : ∀ node ∈ nodes, IsExpression symbols strings visible node) :
    print target table ⟨id, line, kind, format :: nodes⟩ =
      print target table' ⟨id, line, kind, format :: nodes⟩ := by
  simp only [print]
  rw [expressions_congr fun node mem => expression_congr agree (h node (mem_reverse.mp mem))]

theorem read_congr {id line : Nat} {kind : NodeKind} {format : Node}
    (h : ∀ node ∈ nodes, IsReference symbols strings visible node) :
    read target table ⟨id, line, kind, format :: nodes⟩ =
      read target table' ⟨id, line, kind, format :: nodes⟩ := by
  simp only [read]
  rw [forM_congr fun node mem => ?_]
  rw [pushAddress, pushAddress, place_congr agree (h node (mem_reverse.mp mem))]

theorem comparison_congr (h : IsComparison symbols strings visible node) (skip : String) :
    comparison table node skip = comparison table' node skip := by
  obtain ⟨id, line, operator, type, lhs, rhs, _, isLhs, isRhs, rfl⟩ := h
  simp only [comparison, operands, pure_bind, expression_congr agree isLhs,
    expression_congr agree isRhs]

theorem advance_congr {start step : Node} (isStart : IsStart symbols strings visible start)
    (isStep : IsExpression symbols strings visible step) :
    advance table start step = advance table' start step := by
  obtain ⟨id, line, counter, value, isCounter, _, _, rfl⟩ := isStart
  simp only [advance, operands, pure_bind, place_congr agree isCounter,
    expression_congr agree isStep]

theorem test_congr {limit : Node} (isLimit : IsExpression symbols strings visible limit) (counter : Operand) (start : String) :
    test table limit counter start = test table' limit counter start := by
  simp only [test, expression_congr agree isLimit]

end Agree

end LineBasic.Lower
