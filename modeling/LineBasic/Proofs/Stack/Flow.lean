import LineBasic.Proofs.Stack.Marks

/-!
What keeps to the marks: an instruction finds on the stack what it takes from there.
-/

namespace LineBasic

open List Lower

/-- The registers that hold neither end of the frame. -/
def Register.isGeneral : Register → Bool
  | .eax | .ecx | .edx => true
  | .esp | .ebp => false

def Operand.isWord : Operand → Bool
  | .imm _ | .addr _ | .reg _ => true
  | .mem .. | .indexed .. => false

/-- A scalar that can be seen, or an element of an array under the index in `edx`. -/
inductive IsStorage (table : Array Variable) (visible : List Nat) : Operand → Prop
  | scalar {n address : Nat} {v : Variable} : n ∈ visible → table[n]? = some v → v.dims = [] →
      v.address = some address → IsStorage table visible (.mem (-Int32.ofNat address) .ebp)
  | element {n address : Nat} {v : Variable} : n ∈ visible → table[n]? = some v →
      v.address = some address →
      IsStorage table visible (.indexed (-Int32.ofNat address) .ebp .edx wordSize)

def IsReadable (table : Array Variable) (visible : List Nat) (operand : Operand) : Prop :=
  operand.isWord ∨ IsStorage table visible operand

def IsWritable (table : Array Variable) (visible : List Nat) (operand : Operand) : Prop :=
  (∃ register : Register, register.isGeneral ∧ operand = .reg register) ∨
    IsStorage table visible operand

/-- A jump leads to a place with the same temporaries and the same room. -/
def Meets (all : List (Instr × Mark)) (m : Mark) (goal : String) : Prop :=
  ∃ k, (.label goal, k) ∈ all ∧ k.eax = .value ∧ k.pending = m.pending ∧ k.reserved = m.reserved

/-- A jump between statements may lead out of blocks. -/
def Leads (all : List (Instr × Mark)) (m : Mark) (goal : String) : Prop :=
  ∃ k, (.label goal, k) ∈ all ∧ k.eax = .value ∧ k.pending = [] ∧ m.pending = [] ∧
    k.reserved ≤ m.reserved

/-- An instruction that neither enters nor leaves a block, in its place. -/
inductive Fits (table : Array Variable) (all : List (Instr × Mark)) (m : Mark) : Instr → Prop
  | label {name : String} : Fits table all m (.label name)
  | push {source : Operand} : IsReadable table m.visible source → Fits table all m (.push source)
  | pop {target : Register} : target.isGeneral → m.pending ≠ [] → Fits table all m (.pop target)
  | mov {source target : Operand} : source.isWord → IsWritable table m.visible target →
      Fits table all m (.mov source target)
  | lea {source : Operand} : IsStorage table m.visible source → Fits table all m (.lea source .eax)
  | add {source target : Operand} : source.isWord → IsWritable table m.visible target →
      Fits table all m (.add source target)
  | release : Fits table all m
      (.add (.imm (Int32.ofNat (wordSize * m.pending.length))) (.reg .esp))
  | sub {source target : Operand} : source.isWord → IsWritable table m.visible target →
      Fits table all m (.sub source target)
  | imul {source : Operand} {target : Register} : source.isWord → target.isGeneral →
      Fits table all m (.imul source target)
  | cltd : Fits table all m .cltd
  | idiv {divisor : Register} : Fits table all m (.idiv divisor)
  | dec {target : Register} : target.isGeneral → Fits table all m (.dec target)
  | cmp {source target : Operand} : source.isWord → IsReadable table m.visible target →
      Fits table all m (.cmp source target)
  | jmp {goal : String} : Meets all m goal → Fits table all m (.jmp goal)
  | goto {goal : String} : Leads all m goal → Fits table all m (.jmp goal)
  | jcc {condition : Condition} {goal : String} : Meets all m goal →
      Fits table all m (.jcc condition goal)
  | start : Fits table all m (.call "___main")
  | printf {target : Target} : Fits table all m (.call (target.symbol "printf"))
  | scanf {target : Target} {targets : Nat} :
      m.pending = .value :: List.replicate targets .address →
      Fits table all m (.call (target.symbol "scanf"))

/-- An instruction takes the stack from one mark to the next. -/
inductive Moves (table : Array Variable) (all : List (Instr × Mark)) : Mark → Instr → Mark → Prop
  | fits {m : Mark} {instr : Instr} : Fits table all m instr → Moves table all m instr (m.after instr)
  | grow {m : Mark} {vars : List Nat} : m.pending = [] →
      (m.enter table vars).reserved ≤ maxFrameSize →
      Moves table all m (.sub (.imm (Int32.ofNat (frameSize table vars))) (.reg .esp))
        (m.enter table vars)
  | shrink {m : Mark} {vars : List Nat} : m.pending = [] → m.eax = .value →
      Moves table all (m.enter table vars)
        (.add (.imm (Int32.ofNat (frameSize table vars))) (.reg .esp)) m

/-- Each instruction takes the stack to the mark of the next one. -/
inductive Chain (table : Array Variable) (all : List (Instr × Mark)) :
    Mark → List (Instr × Mark) → Mark → Prop
  | nil {m : Mark} : Chain table all m [] m
  | cons {m m₁ m₂ : Mark} {instr : Instr} {rest : List (Instr × Mark)} :
      Storage table m.reserved m.visible → Moves table all m instr m₁ →
      Chain table all m₁ rest m₂ → Chain table all m ((instr, m) :: rest) m₂

section Code

variable {table : Array Variable} {all : List (Instr × Mark)} {m m₁ m₂ : Mark}
  {code rest : List Instr} {α β : Type}

theorem Chain.append {steps others : List (Instr × Mark)} (h : Chain table all m steps m₁)
    (h' : Chain table all m₁ others m₂) : Chain table all m (steps ++ others) m₂ := by
  induction h with
  | nil => exact h'
  | cons storage moves _ ih => exact .cons storage moves (ih h')

theorem Chain.drop {steps others : List (Instr × Mark)} {instr : Instr} {k : Mark}
    (h : Chain table all m (steps ++ (instr, k) :: others) m₁) :
    Chain table all k ((instr, k) :: others) m₁ := by
  induction steps generalizing m with
  | nil =>
    cases h with
    | cons storage moves rest => exact .cons storage moves rest
  | cons step steps ih =>
    cases h with
    | cons _ _ rest => exact ih rest

/-- Each instruction of some code fits the mark that the ones before it lead to. -/
def Flow (table : Array Variable) (all : List (Instr × Mark)) : Mark → List Instr → Mark → Prop
  | m, [], m₁ => m = m₁
  | m, instr :: code, m₁ => Fits table all m instr ∧ Flow table all (m.after instr) code m₁

theorem Flow.through_eq (h : Flow table all m code m₁) : m.through code = m₁ := by
  induction code generalizing m with
  | nil => exact h
  | cons instr code ih => exact ih h.2

theorem Flow.append (h : Flow table all m code m₁) (h' : Flow table all m₁ rest m₂) :
    Flow table all m (code ++ rest) m₂ := by
  induction code generalizing m with
  | nil =>
    cases h
    exact h'
  | cons instr code ih => exact ⟨h.1, ih h.2⟩

theorem Mark.after_reserved (m : Mark) (instr : Instr) : (m.after instr).reserved = m.reserved := by
  unfold Mark.after
  split <;> rfl

theorem Mark.after_visible (m : Mark) (instr : Instr) : (m.after instr).visible = m.visible := by
  unfold Mark.after
  split <;> rfl

theorem Flow.chain (h : Flow table all m code m₁) (storage : Storage table m.reserved m.visible) :
    Chain table all m (m.annotate code) m₁ := by
  induction code generalizing m with
  | nil =>
    cases h
    exact .nil
  | cons instr code ih =>
    refine .cons storage (.fits h.1) (ih h.2 ?_)
    rw [Mark.after_reserved, Mark.after_visible]
    exact storage

/-- Code that has been lowered without a fault takes the stack from one mark to another, wherever its
labels lead to where they stand. -/
def Lowered.Flows (table : Array Variable) (all : List (Instr × Mark)) (lowered : Lowered α)
    (m m₁ : Mark) (post : α → Prop) : Prop :=
  ∀ a, lowered.result = .ok a → m.annotate lowered.code ⊆ all →
    Flow table all m lowered.code m₁ ∧ post a

/-- Lowered code that changes nothing of the stack but its temporaries. -/
abbrev Lowered.Turns (table : Array Variable) (all : List (Instr × Mark)) (reserved : Nat)
    (visible : List Nat) (lowered : Lowered α) (pending pending' : List Temporary) : Prop :=
  lowered.Flows table all ⟨reserved, visible, pending, .value⟩ ⟨reserved, visible, pending', .value⟩
    fun _ => True

variable {post : α → Prop} {post' : β → Prop}

theorem flows_pure {a : α} (h : post a) : (pure a : Lowered α).Flows table all m m post := by
  rintro _ ⟨⟩ _
  exact ⟨rfl, h⟩

theorem flows_fail {fault : EmissionFault} :
    (Lowered.fail fault : Lowered α).Flows table all m m₁ post := by
  rintro _ ⟨⟩

theorem flows_emit (h : m.annotate code ⊆ all → Flow table all m code m₁) :
    (Lowered.emit code).Flows table all m m₁ fun _ => True := by
  rintro _ ⟨⟩ sub
  exact ⟨h sub, trivial⟩

theorem flows_bind {first : Lowered α} {next : α → Lowered β} (h : first.Flows table all m m₁ post)
    (h' : ∀ a, post a → (next a).Flows table all m₁ m₂ post') :
    (first >>= next).Flows table all m m₂ post' := by
  intro b result sub
  rw [Lowered.result_bind] at result
  cases first_ok : first.result with
  | error fault =>
    rw [first_ok] at result
    cases result
  | ok a =>
    rw [first_ok] at result
    rw [Lowered.code_bind first_ok, Mark.annotate_append] at sub
    rw [Lowered.code_bind first_ok]
    obtain ⟨flow, isPost⟩ := h a first_ok fun step mem => sub (mem_append_left _ mem)
    rw [flow.through_eq] at sub
    obtain ⟨flow', isPost'⟩ := h' a isPost b result fun step mem => sub (mem_append_right _ mem)
    exact ⟨flow.append flow', isPost'⟩

end Code

namespace Lower

open Node (IsExpression IsReference IsFormat IsStart IsComparison IsSimple IsStatement)

variable {table : Array Variable} {strings : Array Literal} {all : List (Instr × Mark)}
  {reserved : Nat} {visible : List Nat} {pending : List Temporary} {node : Node} {nodes : List Node}

theorem isWritable_general {register : Register} (h : register.isGeneral) :
    IsWritable table visible (.reg register) :=
  .inl ⟨register, h, rfl⟩

theorem after_push {source : Operand} (h : IsStorage table visible source) :
    Mark.after ⟨reserved, visible, pending, .value⟩ (.push source) =
      ⟨reserved, visible, .value :: pending, .value⟩ := by
  cases h <;> rfl

theorem after_add {source target : Operand} (h : IsStorage table visible target) :
    Mark.after ⟨reserved, visible, pending, .value⟩ (.add source target) =
      ⟨reserved, visible, pending, .value⟩ := by
  cases h <;> rfl

theorem flow_strides (strides : List Nat) :
    Flow table all ⟨reserved, visible, List.replicate strides.length .value ++ pending, .value⟩
      (strides.flatMap fun stride => .pop .eax ::
        (if stride = 1 then [] else [.imul (.imm (Int32.ofNat stride)) .eax]) ++
          [.add (.reg .eax) (.reg .edx)])
      ⟨reserved, visible, pending, .value⟩ := by
  induction strides with
  | nil => rfl
  | cons stride strides ih =>
    have add : Fits table all ⟨reserved, visible, List.replicate strides.length .value ++ pending,
        .value⟩ (.add (.reg .eax) (.reg .edx)) := .add rfl (isWritable_general rfl)
    rw [flatMap_cons]
    refine ⟨.pop rfl (by simp [replicate_succ]), ?_⟩
    split
    next => exact ⟨add, ih⟩
    next => exact ⟨.imul rfl rfl, add, ih⟩

theorem flow_elementOffset (dims : List Nat) :
    Flow table all ⟨reserved, visible, List.replicate dims.length .value ++ pending, .value⟩
      (elementOffset dims) ⟨reserved, visible, pending, .value⟩ := by
  have strides := @flow_strides table all reserved visible pending (Shape.strides dims).reverse
  rw [length_reverse, Shape.length_strides] at strides
  exact ⟨.mov rfl (isWritable_general rfl), strides⟩

theorem replicate_cons_append (temporary : Temporary) :
    List.replicate (node :: nodes).length temporary ++ pending =
      List.replicate nodes.length temporary ++ temporary :: pending := by
  rw [length_cons, replicate_succ', append_assoc]
  rfl

theorem flows_expressions
    (h : ∀ node ∈ nodes, ∀ pending, (expression table node).Turns table all reserved visible pending
      (.value :: pending)) :
    (expressions table nodes).Turns table all reserved visible pending
      (List.replicate nodes.length .value ++ pending) := by
  induction nodes generalizing pending with
  | nil =>
    rw [expressions]
    exact flows_pure trivial
  | cons node nodes ih =>
    have rest := @ih (.value :: pending) fun other mem => h other (mem_cons_of_mem _ mem)
    rw [expressions, replicate_cons_append]
    exact flows_bind (h node (mem_cons_self ..) pending) fun _ _ => rest

theorem flow_power {id : Nat} (sub : Mark.annotate ⟨reserved, visible,
      .value :: .value :: pending, .value⟩ (power id ++ [.push (.reg .eax)]) ⊆ all) :
    Flow table all ⟨reserved, visible, .value :: .value :: pending, .value⟩
      (power id ++ [.push (.reg .eax)]) ⟨reserved, visible, .value :: pending, .value⟩ := by
  have meets {name : String} (mem : (Instr.label name, ⟨reserved, visible, pending, .value⟩) ∈
      Mark.annotate ⟨reserved, visible, .value :: .value :: pending, .value⟩
        (power id ++ [.push (.reg .eax)])) :
      Meets all ⟨reserved, visible, pending, .value⟩ name :=
    ⟨_, sub mem, rfl, rfl, rfl⟩
  refine ⟨.pop rfl (by simp), .pop rfl (by simp [Mark.after]), .mov rfl (isWritable_general rfl),
    .jmp (meets ?_), .label, .imul rfl rfl, .dec rfl, .label,
    .cmp rfl (.inl rfl), .jcc (meets ?_), .push (.inl rfl), rfl⟩
  · simp [power, Mark.annotate, Mark.after]
  · simp [power, Mark.annotate, Mark.after]

theorem flows_operation {id : Nat} {operator : Operator} :
    (operation id operator).Turns table all reserved visible (.value :: .value :: pending)
      (.value :: pending) := by
  have two : Fits table all ⟨reserved, visible, .value :: .value :: pending, .value⟩ (.pop .edx) :=
    .pop rfl (by simp)
  have one : Fits table all ⟨reserved, visible, .value :: pending, .value⟩ (.pop .eax) :=
    .pop rfl (by simp)
  have last : Fits table all ⟨reserved, visible, pending, .value⟩ (.push (.reg .eax)) :=
    .push (.inl rfl)
  cases operator with
  | plus => exact flows_emit fun _ => ⟨two, one, .add rfl (isWritable_general rfl), last, rfl⟩
  | minus => exact flows_emit fun _ => ⟨two, one, .sub rfl (isWritable_general rfl), last, rfl⟩
  | star => exact flows_emit fun _ => ⟨two, one, .imul rfl rfl, last, rfl⟩
  | slash => exact flows_emit fun _ => ⟨.pop rfl (by simp), one, .cltd, .idiv, last, rfl⟩
  | caret => exact flows_emit flow_power
  | _ => exact flows_fail

theorem flows_integerValue {m : Mark} (value : Literal) :
    (integerValue value).Flows table all m m fun _ => True := by
  unfold integerValue
  split
  next => exact flows_pure trivial
  next => exact flows_fail

theorem flows_literal (value : Literal) :
    (literal value).Turns table all reserved visible pending (.value :: pending) := by
  unfold literal
  split
  next =>
    exact flows_bind (flows_integerValue value) fun _ _ =>
      flows_emit fun _ => ⟨.push (.inl rfl), rfl⟩
  next =>
    split
    next => exact flows_emit fun _ => ⟨.push (.inl rfl), rfl⟩
    next => exact flows_fail
  next => exact flows_fail

theorem flows_immediate? {m : Mark} (node : Node) :
    (immediate? node).Flows table all m m fun _ => True := by
  unfold immediate?
  split
  next value _ =>
    split
    next => exact flows_bind (flows_integerValue value) fun _ _ => flows_pure trivial
    next => exact flows_pure trivial
  next => exact flows_pure trivial

theorem flows_call {target : Target} {function : String} {format : Node} {arguments : Nat}
    {temporaries : List Temporary} (length : temporaries.length = arguments)
    (h : Fits table all ⟨reserved, visible, .value :: temporaries, .value⟩
      (.call (target.symbol function))) :
    (call target function format arguments).Turns table all reserved visible temporaries [] := by
  unfold call
  split
  next =>
    cases length
    exact flows_emit fun _ => ⟨.push (.inl rfl), h, .release, rfl⟩
  next => exact flows_fail

theorem flows_decision {m : Mark} (operator : Operator) :
    (decision operator).Flows table all m m fun _ => True := by
  cases operator with
  | equal | same | notEqual | less | lessEqual | greater | greaterEqual => exact flows_pure trivial
  | _ => exact flows_fail

section Frame

variable (storage : Storage table reserved visible)

include storage

theorem flows_storage {n : Nat} {v : Variable} {indices : List Node} {values : Lowered Unit}
    (mem : n ∈ visible) (found : table[n]? = some v)
    (length : indices.length = v.dims.length)
    (h : values.Turns table all reserved visible pending
      (List.replicate indices.length .value ++ pending)) :
    (Lower.storage v (!indices.isEmpty) values).Flows table all ⟨reserved, visible, pending, .value⟩
      ⟨reserved, visible, pending, .value⟩ (IsStorage table visible) := by
  obtain ⟨v', address, found', eq, _⟩ := storage.inside n mem
  cases found.symm.trans found'
  unfold Lower.storage
  rw [eq]
  cases indices with
  | nil =>
    have scalar : v.dims = [] := eq_nil_of_length_eq_zero length.symm
    exact flows_pure (.scalar mem found scalar eq)
  | cons index indices =>
    refine flows_bind h fun _ _ => flows_bind (flows_emit fun _ => ?_) fun _ _ =>
      flows_pure (.element mem found eq)
    rw [length]
    exact flow_elementOffset v.dims

theorem flows_expression (h : IsExpression table strings visible node)
    (pending : List Temporary) :
    (expression table node).Turns table all reserved visible pending (.value :: pending) := by
  induction h generalizing pending with
  | integer | decimal | text =>
    rw [expression]
    exact flows_literal _
  | @reference id line number v indices mem found length _ ih =>
    rw [expression]
    split
    next => exact flows_fail
    next =>
      rw [found]
      exact flows_bind (flows_storage storage mem found length
        (flows_expressions fun index inside => ih index inside)) fun _ isStorage =>
          flows_emit fun _ => ⟨.push (.inr isStorage), after_push isStorage⟩
  | @operation id line operator type lhs rhs _ _ _ ihl ihr =>
    rcases float_or_text_or type with rfl | rfl | ⟨noFloat, noText⟩
    · rw [expression]
      exact flows_fail
    · rw [expression]
      exact flows_fail
    · rw [expression_operation noFloat noText]
      exact flows_bind (ihl pending) fun _ _ => flows_bind (ihr (.value :: pending)) fun _ _ =>
        flows_operation

theorem flows_place (h : IsReference table strings visible node) :
    (place table node).Flows table all ⟨reserved, visible, pending, .value⟩
      ⟨reserved, visible, pending, .value⟩ (IsStorage table visible) := by
  obtain ⟨isExpression, number, eq⟩ := h
  cases isExpression with
  | reference mem found length isIndex =>
    unfold place
    simp only [found]
    exact flows_storage storage mem found length
      (flows_expressions fun index inside => flows_expression storage (isIndex index inside))
  | _ => cases eq

theorem flows_assignment {id line : Nat} {target value : Node}
    (isTarget : IsReference table strings visible target)
    (isValue : IsExpression table strings visible value) :
    (assignment table ⟨id, line, .assign, [target, value]⟩).Turns table all reserved visible [] [] := by
  simp only [assignment, operands, pure_bind]
  refine flows_bind (flows_immediate? value) fun value? _ => ?_
  cases value? with
  | some word =>
    exact flows_bind (flows_place storage isTarget) fun _ isStorage =>
      flows_emit fun _ => ⟨.mov rfl (.inr isStorage), rfl⟩
  | none =>
    exact flows_bind (flows_expression storage isValue []) fun _ _ =>
      flows_bind (flows_place storage isTarget) fun _ isStorage =>
        flows_emit fun _ => ⟨.pop rfl (by simp), .mov rfl (.inr isStorage), rfl⟩

theorem flows_start (h : IsStart table strings visible node) :
    (assignment table node).Turns table all reserved visible [] [] := by
  obtain ⟨id, line, counter, value, isCounter, _, isValue, rfl⟩ := h
  exact flows_assignment storage isCounter isValue

theorem flows_print {target : Target} {id line : Nat} {kind : NodeKind} {format : Node}
    (h : ∀ node ∈ nodes, IsExpression table strings visible node) :
    (print target table ⟨id, line, kind, format :: nodes⟩).Turns table all reserved visible [] [] := by
  simp only [print]
  refine flows_bind (flows_expressions fun node mem =>
    flows_expression storage (h node (mem_reverse.mp mem))) fun _ _ => ?_
  rw [append_nil]
  exact flows_call (by simp) .printf

theorem flows_pushAddress (h : IsReference table strings visible node) :
    (pushAddress table node).Turns table all reserved visible pending (.address :: pending) :=
  flows_bind (flows_place storage h) fun _ isStorage =>
    flows_emit fun _ => ⟨.lea isStorage, .push (.inl rfl), rfl⟩

theorem flows_addresses (h : ∀ node ∈ nodes, IsReference table strings visible node) :
    (nodes.forM (pushAddress table)).Turns table all reserved visible pending
      (List.replicate nodes.length .address ++ pending) := by
  induction nodes generalizing pending with
  | nil => exact flows_pure trivial
  | cons node nodes ih =>
    have rest := @ih (.address :: pending) fun other mem => h other (mem_cons_of_mem _ mem)
    rw [replicate_cons_append]
    exact flows_bind (flows_pushAddress storage (h node (mem_cons_self ..))) fun _ _ => rest

theorem flows_read {target : Target} {id line : Nat} {kind : NodeKind} {format : Node}
    (h : ∀ node ∈ nodes, IsReference table strings visible node) :
    (read target table ⟨id, line, kind, format :: nodes⟩).Turns table all reserved visible [] [] := by
  simp only [read]
  refine flows_bind (flows_addresses storage fun node mem => h node (mem_reverse.mp mem))
    fun _ _ => ?_
  rw [append_nil]
  exact flows_call (by simp) (.scanf rfl)

theorem flows_comparison (h : IsComparison table strings visible node)
    {skip : String}
    (meets : Meets all ⟨reserved, visible, [], .value⟩ skip) :
    (comparison table node skip).Turns table all reserved visible [] [] := by
  obtain ⟨id, line, operator, type, lhs, rhs, _, isLhs, isRhs, rfl⟩ := h
  unfold comparison
  split
  next => exact flows_fail
  next =>
    simp only [operands, pure_bind]
    have pops : (Lowered.emit [.pop .eax, .pop .edx]).Turns table all reserved visible
        [.value, .value] [] :=
      flows_emit fun _ => ⟨.pop rfl (by simp), .pop rfl (by simp [Mark.after]), rfl⟩
    have last (fails : Condition) : (Lowered.emit [.cmp (.reg .eax) (.reg .edx),
        .jcc fails skip]).Turns table all reserved visible [] [] :=
      flows_emit fun _ => ⟨.cmp rfl (.inl rfl), .jcc meets, rfl⟩
    refine flows_bind (flows_expression storage isLhs []) fun _ _ =>
      flows_bind (flows_expression storage isRhs [.value]) fun _ _ => flows_bind pops fun _ _ =>
      flows_bind (flows_decision _) fun decided _ => ?_
    obtain ⟨adjusted, fails⟩ := decided
    cases adjusted with
    | false => exact last fails
    | true =>
      exact flows_bind (flows_emit fun _ => ⟨.sub rfl (isWritable_general rfl), rfl⟩) fun _ _ =>
        last fails
  next => exact flows_fail

theorem flows_advance {start step : Node} (isStart : IsStart table strings visible start)
    (isStep : IsExpression table strings visible step) :
    (advance table start step).Flows table all ⟨reserved, visible, [], .value⟩
      ⟨reserved, visible, [], .value⟩ (IsStorage table visible) := by
  obtain ⟨id, line, counter, value, isCounter, _, _, rfl⟩ := isStart
  simp only [advance, operands, pure_bind]
  refine flows_bind (flows_place storage isCounter) fun counter isStorage =>
    flows_bind (flows_expression storage isStep []) fun _ _ => ?_
  have add : (Lowered.emit [.pop .eax, .add (.reg .eax) counter]).Turns table all reserved visible
      [.value] [] :=
    flows_emit fun _ => ⟨.pop rfl (by simp), .add rfl (.inr isStorage), after_add isStorage⟩
  exact flows_bind add fun _ _ => flows_pure isStorage

theorem flows_test {limit : Node} {counter : Operand} {start : String}
    (isLimit : IsExpression table strings visible limit)
    (isCounter : IsStorage table visible counter)
    (meets : Meets all ⟨reserved, visible, [], .value⟩ start) :
    (test table limit counter start).Turns table all reserved visible [] [] :=
  flows_bind (flows_expression storage isLimit []) fun _ _ =>
    flows_emit fun _ => ⟨.pop rfl (by simp), .cmp rfl (.inr isCounter), .jcc meets, rfl⟩

end Frame

end Lower

end LineBasic
