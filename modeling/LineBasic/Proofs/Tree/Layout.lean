import LineBasic.Proofs.Tree.Enclosure

/-!
Which children the nodes of a tree have, by their kinds.
-/

namespace LineBasic

open List

/-- What a node can stand for in its parent. -/
inductive Role where
  | program
  | block
  | statement
  | expression
  | comparison
deriving DecidableEq

namespace NodeKind

def role : NodeKind → Role
  | program _ => .program
  | block _ => .block
  | reference _ | literal _ => .expression
  | operator symbol _ => if symbol.isComparator then .comparison else .expression
  | assign | loop | branch | goto _ | print | println | read => .statement

def IsReference (kind : NodeKind) : Prop :=
  ∃ number, kind = .reference number

def IsText (kind : NodeKind) : Prop :=
  ∃ value, kind = .literal value ∧ value.type = .string

/-- The children that a node of a kind has. -/
inductive Fits (symbols : Array Variable) : NodeKind → List NodeKind → Prop
  | program {vars : List Nat} {body : List NodeKind} :
      (∀ kind ∈ body, kind.role = .statement) → Fits symbols (.program vars) body
  | block {vars : List Nat} {body : List NodeKind} :
      (∀ kind ∈ body, kind.role = .statement) → Fits symbols (.block vars) body
  | assign {target value : NodeKind} :
      target.IsReference → value.role = .expression → Fits symbols .assign [target, value]
  | reference {number : Nat} {v : Variable} {indices : List NodeKind} :
      symbols[number]? = some v → indices.length = v.dims.length →
      (∀ kind ∈ indices, kind.role = .expression) → Fits symbols (.reference number) indices
  | literal {value : Literal} : Fits symbols (.literal value) []
  | operator {operator : Operator} {type : Option ValueType} {lhs rhs : NodeKind} :
      lhs.role = .expression → rhs.role = .expression →
      Fits symbols (.operator operator type) [lhs, rhs]
  | loop {start limit step body : NodeKind} :
      start = .assign → limit.role = .expression → step.role = .expression → body.role = .block →
      Fits symbols .loop [start, limit, step, body]
  | branch {condition consequence : NodeKind} {alternative : Option NodeKind} :
      condition.role = .comparison → consequence.role = .block →
      (∀ kind ∈ alternative, kind.role = .block) →
      Fits symbols .branch (condition :: consequence :: alternative.toList)
  | goto {target : Nat} : Fits symbols (.goto target) []
  | print {format : NodeKind} {arguments : List NodeKind} :
      format.IsText → (∀ kind ∈ arguments, kind.role = .expression) →
      Fits symbols .print (format :: arguments)
  | println {format : NodeKind} {argument : Option NodeKind} :
      format.IsText → (∀ kind ∈ argument, kind.IsReference) →
      Fits symbols .println (format :: argument.toList)
  | read {format : NodeKind} {targets : List NodeKind} :
      format.IsText → (∀ kind ∈ targets, kind.IsReference) →
      Fits symbols .read (format :: targets)

variable {symbols : Array Variable} {kind : NodeKind} {kinds : List NodeKind}

theorem IsReference.role (h : kind.IsReference) : kind.role = .expression := by
  obtain ⟨number, rfl⟩ := h
  rfl

theorem IsText.role (h : kind.IsText) : kind.role = .expression := by
  obtain ⟨value, rfl, -⟩ := h
  rfl

theorem Fits.roles (fits : Fits symbols kind kinds) : (∀ child ∈ kinds, child.role ≠ .program) ∧
    (∀ child ∈ kinds.tail, child.role ≠ .comparison) ∧
    (kind ≠ .branch → ∀ child ∈ kinds, child.role ≠ .comparison) := by
  have reference := @IsReference.role
  have text := @IsText.role
  cases fits <;> grind [NodeKind.role, mem_of_mem_tail]

end NodeKind

namespace Node

variable {symbols : Array Variable} {strings : Array Literal} {visible : List Nat}
  {id line : Nat} {kind : NodeKind} {node up child : Node} {nodes : List Node}

theorem IsExpression.role (h : node.IsExpression symbols strings visible) :
    node.kind.role = .expression := by
  cases h with
  | integer | decimal | text | reference => rfl
  | operation arithmetic => simp [NodeKind.role, Operator.isComparator, arithmetic]

theorem IsFormat.isText (h : node.IsFormat strings) : node.kind.IsText := by
  obtain ⟨_, _, _, literal, _, isText, rfl⟩ := h
  exact ⟨literal, rfl, isText.type⟩

theorem IsStart.isAssign (h : node.IsStart symbols strings visible) : node.kind = .assign := by
  obtain ⟨_, _, _, _, _, _, _, rfl⟩ := h
  rfl

theorem IsComparison.role (h : node.IsComparison symbols strings visible) :
    node.kind.role = .comparison := by
  obtain ⟨_, _, _, _, _, _, compares, _, _, rfl⟩ := h
  simp [NodeKind.role, compares]

theorem IsStatement.role (h : node.IsStatement symbols strings visible) :
    node.kind.role = .statement := by
  cases h with
  | simple isSimple => cases isSimple <;> rfl
  | loop | branch | branchElse => rfl

theorem forall_role {role : Role} (h : ∀ node ∈ nodes, node.kind.role = role) :
    ∀ kind ∈ nodes.map Node.kind, kind.role = role :=
  forall_mem_map.mpr h

/-- Every node of a tree has the children that its kind asks for. -/
def LaidOut (symbols : Array Variable) (node : Node) : Prop :=
  ∀ inner ∈ node.nodes, inner.kind.Fits symbols (inner.children.map Node.kind)

namespace LaidOut

theorem mk (own : kind.Fits symbols (nodes.map Node.kind))
    (below : ∀ node ∈ nodes, node.LaidOut symbols) :
    LaidOut symbols ⟨id, line, kind, nodes⟩ := by
  intro inner mem
  rcases mem_nodes.mp mem with rfl | ⟨child, isChild, mem⟩
  · exact own
  · exact below child isChild inner mem

theorem expression (h : node.IsExpression symbols strings visible) : LaidOut symbols node := by
  induction h with
  | integer | decimal | text => exact mk .literal (by simp)
  | reference _ found length isIndex ih =>
    refine mk (.reference found (by rw [length_map, length]) ?_) ih
    exact forall_role fun index mem => (isIndex index mem).role
  | operation _ isLeft isRight lhs rhs =>
    exact mk (.operator isLeft.role isRight.role) (by simp [lhs, rhs])

theorem format (h : node.IsFormat strings) : LaidOut symbols node := by
  obtain ⟨_, _, _, _, _, _, rfl⟩ := h
  exact mk .literal (by simp)

theorem start (h : node.IsStart symbols strings visible) : LaidOut symbols node := by
  obtain ⟨_, _, counter, value, isCounter, _, isValue, rfl⟩ := h
  exact mk (.assign isCounter.2 isValue.role) (by simp [expression isCounter.1, expression isValue])

theorem comparison (h : node.IsComparison symbols strings visible) : LaidOut symbols node := by
  obtain ⟨_, _, _, _, lhs, rhs, _, isLeft, isRight, rfl⟩ := h
  exact mk (.operator isLeft.role isRight.role) (by simp [expression isLeft, expression isRight])

theorem simple (h : node.IsSimple symbols strings visible) : LaidOut symbols node := by
  cases h with
  | assign isTarget isValue =>
    refine mk (.assign isTarget.2 isValue.role) ?_
    simp [expression isTarget.1, expression isValue]
  | goto => exact mk .goto (by simp)
  | print isFormat isArgument =>
    refine mk (.print isFormat.isText ?_) ?_
    · exact forall_role fun argument mem => (isArgument argument mem).role
    · exact forall_mem_cons.mpr ⟨format isFormat, fun argument mem =>
        expression (isArgument argument mem)⟩
  | @println _ _ _ argument isFormat isArgument =>
    refine mk ?_ ?_
    · rw [map_cons, ← Option.toList_map]
      refine .println isFormat.isText fun kind mem => ?_
      obtain ⟨node, isNode, rfl⟩ := Option.map_eq_some_iff.mp mem
      exact (isArgument node isNode).2
    · exact forall_mem_cons.mpr ⟨format isFormat, fun argument mem =>
        expression (isArgument argument (Option.mem_toList.mp mem)).1⟩
  | read isFormat isTarget =>
    refine mk (.read isFormat.isText ?_) ?_
    · exact forall_mem_map.mpr fun target mem => (isTarget target mem).2
    · exact forall_mem_cons.mpr ⟨format isFormat, fun target mem =>
        expression (isTarget target mem).1⟩

theorem block {vars : List Nat} (h : ∀ node ∈ nodes, node.IsStatement symbols strings visible)
    (below : ∀ node ∈ nodes, node.LaidOut symbols) :
    LaidOut symbols ⟨id, line, .block vars, nodes⟩ :=
  mk (.block (forall_role fun node mem => (h node mem).role)) below

theorem statement (h : node.IsStatement symbols strings visible) : LaidOut symbols node := by
  induction h with
  | simple isSimple => exact simple isSimple
  | loop isStart isLimit isStep isBody ih =>
    refine mk (.loop isStart.isAssign isLimit.role isStep.role rfl) ?_
    simp only [forall_mem_cons, not_mem_nil, false_implies, implies_true, and_true]
    exact ⟨start isStart, expression isLimit, expression isStep, block isBody ih⟩
  | branch isCondition isBody ih =>
    refine mk (@NodeKind.Fits.branch _ _ _ none isCondition.role rfl (by simp)) ?_
    simp only [forall_mem_cons, not_mem_nil, false_implies, implies_true, and_true]
    exact ⟨comparison isCondition, block isBody ih⟩
  | branchElse isCondition isBody isOther ih ih' =>
    refine mk (@NodeKind.Fits.branch _ _ _ (some _) isCondition.role rfl ?_) ?_
    · rintro _ ⟨⟩
      rfl
    simp only [forall_mem_cons, not_mem_nil, false_implies, implies_true, and_true]
    exact ⟨comparison isCondition, block isBody ih, block isOther ih'⟩

end LaidOut

theorem eq_branch_of_comparison (fits : up.kind.Fits symbols (up.children.map Node.kind))
    (isChild : child ∈ up.children) (compares : child.kind.role = .comparison) :
    up.kind = .branch ∧ up.children.head? = some child := by
  obtain ⟨-, rest, other⟩ := fits.roles
  constructor
  · by_contra h
    exact other h _ (mem_map_of_mem isChild) compares
  · cases eq : up.children with
    | nil => simp [eq] at isChild
    | cons first later =>
      rw [eq] at isChild rest
      rcases mem_cons.mp isChild with rfl | mem
      · rfl
      · exact absurd compares (rest _ (mem_map_of_mem mem))

end Node

namespace Arena

open Node

variable {arena : Arena} {root up : Node} {symbols : Array Variable} {id : Nat} {link : Link}

/-- The kinds of some nodes, if they are all there. -/
def kinds? (arena : Arena) (numbers : List Nat) : Option (List NodeKind) :=
  numbers.mapM fun number => (arena.lookup number).map Link.kind

/-- The nodes of a table have the children that their kinds ask for. Only the root is a program, and
only the first child of a branch is a comparison. -/
structure LaidOut (arena : Arena) (symbols : Array Variable) (root : Nat) : Prop where
  fits : ∀ id link, (id, link) ∈ arena → ∃ kinds, arena.kinds? link.children = some kinds ∧
    link.kind.Fits symbols kinds
  program : ∀ id link, (id, link) ∈ arena → (link.kind.role = .program ↔ id = root)
  comparison : ∀ id link, (id, link) ∈ arena → link.kind.role = .comparison →
    ∃ parent above, link.parent = some parent ∧ (parent, above) ∈ arena ∧
      above.kind = .branch ∧ above.children.head? = some id

namespace Of

theorem kinds?_children (of : arena.Of root) (mem : up ∈ root.nodes) :
    arena.kinds? (up.children.map Node.id) = some (up.children.map Node.kind) := by
  have each : ∀ child ∈ up.children, (arena.lookup child.id).map Link.kind = some child.kind := by
    intro child isChild
    rw [of.lookup (of.mem_child mem isChild)]
    rfl
  rw [kinds?]
  generalize up.children = nodes at each
  induction nodes with
  | nil => rfl
  | cons node nodes ih =>
    obtain ⟨first, rest⟩ := forall_mem_cons.mp each
    simp [first, ih rest]

theorem laidOut (of : arena.Of root) (isProgram : root.kind.role = .program)
    (h : root.LaidOut symbols) : arena.LaidOut symbols root.id where
  fits id link mem := by
    obtain ⟨node, inside, rfl, eq⟩ := of.exists_node mem
    rw [eq]
    exact ⟨_, of.kinds?_children inside, h node inside⟩
  program id link mem := by
    rcases of.cases mem with ⟨rfl, rfl⟩ | ⟨up, inside, child, isChild, rfl, rfl⟩
    · exact ⟨fun _ => rfl, fun _ => isProgram⟩
    · have notProgram := (h up inside).roles.1 _ (mem_map_of_mem isChild)
      refine ⟨fun eq => absurd eq notProgram, fun same => ?_⟩
      exact absurd (same ▸ of.isChild inside isChild) (of.not_child_root up.id)
  comparison id link mem compares := by
    rcases of.cases mem with ⟨rfl, rfl⟩ | ⟨up, inside, child, isChild, rfl, rfl⟩
    · cases isProgram.symm.trans compares
    · obtain ⟨isBranch, first⟩ := eq_branch_of_comparison (h up inside) isChild compares
      obtain ⟨parent, listed⟩ := of.exists_link inside
      refine ⟨up.id, up.link parent, rfl, listed, isBranch, ?_⟩
      show (up.children.map Node.id).head? = _
      rw [head?_map, first]
      rfl

end Of

end Arena

end LineBasic
