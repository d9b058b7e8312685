import LineBasic.Proofs.Lower.Storage

/-!
What the stack looks like before each instruction of a program.
-/

namespace LineBasic

open List Lower

/-- What is known of a temporary: it may be any value, or it is the address of a variable. -/
inductive Temporary where
  | value | address
deriving DecidableEq

/-- The stack before an instruction. `pending` are the temporaries, the top one first, and `eax` says
what the register holds. -/
structure Mark where
  reserved : Nat
  visible : List Nat
  pending : List Temporary := []
  eax : Temporary := .value
deriving DecidableEq

namespace Mark

def push (m : Mark) (temporary : Temporary) : Mark :=
  { m with pending := temporary :: m.pending, eax := .value }

/-- The stack after an instruction that neither enters nor leaves a block. Only the arguments of a
call are taken off by an addition, all at once. -/
def after (m : Mark) : Instr → Mark
  | .push (.reg .eax) => m.push m.eax
  | .push _ => m.push .value
  | .pop _ => { m with pending := m.pending.tail, eax := .value }
  | .lea _ _ => { m with eax := .address }
  | .add _ (.reg .esp) => { m with pending := [], eax := .value }
  | _ => { m with eax := .value }

def enter (m : Mark) (table : Array Variable) (vars : List Nat) : Mark where
  reserved := m.reserved + frameSize table vars
  visible := vars ++ m.visible

/-- Instructions with the stack before each of them. -/
def annotate (m : Mark) : List Instr → List (Instr × Mark)
  | [] => []
  | instr :: code => (instr, m) :: annotate (m.after instr) code

def through (m : Mark) (code : List Instr) : Mark :=
  code.foldl after m

end Mark

namespace Lower

mutual

/-- The code of a statement with the stack before each instruction. -/
def statementMarks (target : Target) (table : Array Variable) (m : Mark) (last : Option Nat) :
    Node → List (Instr × Mark)
  | ⟨id, line, kind, children⟩ =>
    m.annotate (labelCode last ⟨id, line, kind, children⟩) ++ match kind, children with
      | .loop, [start, limit, step, body] =>
        m.annotate (assignment table start).code ++
          m.annotate [.jmp (loopTest line), .label (loopStart line)] ++
          blockMarks target table m body ++ m.annotate (advance table start step).code ++
          m.annotate [.label (loopTest line)] ++
          m.annotate (test table limit (counterPlace table start step) (loopStart line)).code
      | .branch, [condition, consequence] =>
        m.annotate (comparison table condition (branchEnd line)).code ++
          blockMarks target table m consequence ++
          m.annotate [.jmp (branchEnd line), .label (branchEnd line)]
      | .branch, [condition, consequence, alternative] =>
        m.annotate (comparison table condition (branchElse line)).code ++
          blockMarks target table m consequence ++
          m.annotate [.jmp (branchEnd line), .label (branchElse line)] ++
          blockMarks target table m alternative ++ m.annotate [.label (branchEnd line)]
      | _, _ => m.annotate (simpleCode target table ⟨id, line, kind, children⟩)

def statementsMarks (target : Target) (table : Array Variable) (m : Mark) (last : Option Nat) :
    List Node → List (Instr × Mark)
  | [] => []
  | node :: nodes =>
    statementMarks target table m last node ++ statementsMarks target table m node.lastLine nodes

def blockMarks (target : Target) (table : Array Variable) (m : Mark) : Node → List (Instr × Mark)
  | ⟨_, _, kind, children⟩ =>
    m.annotate (grow (frameSize table (kind.vars?.getD []))) ++
      statementsMarks target table (m.enter table (kind.vars?.getD [])) none children ++
      (m.enter table (kind.vars?.getD [])).annotate
        (shrink (frameSize table (kind.vars?.getD [])))

end

/-- The stack of a program outside all blocks but its own. -/
def bodyMark (table : Array Variable) (program : Program) : Mark :=
  Mark.enter ⟨0, [], [], .value⟩ table program.vars

/-- The code of a program from the end of its prologue to the release of its frame. -/
def bodyMarks (target : Target) (table : Array Variable) (program : Program) :
    List (Instr × Mark) :=
  (bodyMark table program).annotate (if target = .mingw then [.call "___main"] else []) ++
    statementsMarks target table (bodyMark table program) none program.root.children ++
    (bodyMark table program).annotate [.mov (.imm 0) (.reg .eax)]

end Lower

namespace Mark

variable {m : Mark} {code rest : List Instr}

@[simp] theorem map_fst_annotate (m : Mark) (code : List Instr) :
    (m.annotate code).map Prod.fst = code := by
  induction code generalizing m with
  | nil => rfl
  | cons instr code ih => rw [annotate, map_cons, ih]

theorem annotate_append (m : Mark) (code rest : List Instr) :
    m.annotate (code ++ rest) = m.annotate code ++ (m.through code).annotate rest := by
  induction code generalizing m with
  | nil => rfl
  | cons instr code ih =>
    rw [cons_append, annotate, ih]
    rfl

end Mark

namespace Lower

variable {target : Target} {table : Array Variable}

mutual

theorem map_fst_statementMarks (m : Mark) (last : Option Nat) (node : Node) :
    (statementMarks target table m last node).map Prod.fst = statementCode target table last node := by
  obtain ⟨id, line, kind, children⟩ := node
  unfold statementMarks
  rw [map_append, Mark.map_fst_annotate]
  split
  next start limit step body =>
    simp only [statementCode, map_append, Mark.map_fst_annotate, map_fst_blockMarks m body]
  next condition consequence =>
    simp only [statementCode, map_append, Mark.map_fst_annotate, map_fst_blockMarks m consequence]
  next condition consequence alternative =>
    simp only [statementCode, map_append, Mark.map_fst_annotate, map_fst_blockMarks m consequence,
      map_fst_blockMarks m alternative]
  next loop branch branchElse =>
    rw [Mark.map_fst_annotate, statementCode]
    · exact loop
    · exact branch
    · exact branchElse

theorem map_fst_statementsMarks (m : Mark) (last : Option Nat) (nodes : List Node) :
    (statementsMarks target table m last nodes).map Prod.fst =
      statementsCode target table last nodes := by
  cases nodes with
  | nil =>
    rw [statementsMarks, statementsCode]
    rfl
  | cons node nodes =>
    rw [statementsMarks, statementsCode, map_append, map_fst_statementMarks m last node,
      map_fst_statementsMarks m node.lastLine nodes]

theorem map_fst_blockMarks (m : Mark) (node : Node) :
    (blockMarks target table m node).map Prod.fst = blockCode target table node := by
  obtain ⟨id, line, kind, children⟩ := node
  rw [blockMarks, blockCode, map_append, map_append, Mark.map_fst_annotate,
    Mark.map_fst_annotate, map_fst_statementsMarks _ none children]

end

theorem statementMarks_simple {m : Mark} {last : Option Nat} {node : Node}
    (h : node.kind.form = .simple) :
    statementMarks target table m last node =
      m.annotate (labelCode last node) ++ m.annotate (simpleCode target table node) := by
  obtain ⟨id, line, kind, children⟩ := node
  rw [statementMarks]
  · rintro _ _ _ _ rfl
    cases h
  · rintro _ _ rfl
    cases h
  · rintro _ _ _ rfl
    cases h

theorem map_fst_bodyMarks (program : Program) :
    (bodyMarks target table program).map Prod.fst =
      (if target = .mingw then [.call "___main"] else []) ++
        statementsCode target table none program.root.children ++
        [.mov (.imm 0) (.reg .eax)] := by
  rw [bodyMarks, map_append, map_append, map_fst_statementsMarks, Mark.map_fst_annotate,
    Mark.map_fst_annotate]

end Lower

end LineBasic
