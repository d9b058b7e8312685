import LineBasic.Proofs.Stack.Flow

/-!
The code of a whole program keeps to its marks.
-/

namespace LineBasic.Lower

open List

open Node (IsExpression IsReference IsFormat IsStart IsComparison IsSimple IsStatement Lands)

variable {target : Target} {table : Array Variable} {strings : Array Literal}
  {all : List (Instr × Mark)} {reserved : Nat} {visible vars seats : List Nat} {last : Option Nat}
  {node : Node} {nodes : List Node}

theorem chain_of_flows {α : Type} {lowered : Lowered α} {m m₁ : Mark} {post : α → Prop}
    (h : lowered.Flows table all m m₁ post) (succeeds : lowered.Succeeds)
    (storage : Storage table m.reserved m.visible) (sub : m.annotate lowered.code ⊆ all) :
    Chain table all m (m.annotate lowered.code) m₁ := by
  obtain ⟨a, result⟩ := succeeds
  exact (h a result sub).1.chain storage

/-- Steps that leave the stack as it was, with no temporaries on it before and after. -/
abbrev Level (table : Array Variable) (all : List (Instr × Mark)) (reserved : Nat)
    (visible : List Nat) (steps : Mark → List (Instr × Mark)) : Prop :=
  Chain table all ⟨reserved, visible, [], .value⟩ (steps ⟨reserved, visible, [], .value⟩)
    ⟨reserved, visible, [], .value⟩

section Simple

variable (storage : Storage table reserved visible)

include storage

theorem chain_simple (h : IsSimple table strings visible node) (lowers : Lowers target table node)
    (leads : ∀ goal, node.kind = .goto goal →
      Leads all ⟨reserved, visible, [], .value⟩ (lineLabel goal))
    (sub : Mark.annotate ⟨reserved, visible, [], .value⟩ (simpleCode target table node) ⊆ all) :
    Level table all reserved visible (Mark.annotate · (simpleCode target table node)) := by
  cases h with
  | assign isTarget isValue =>
    exact chain_of_flows (flows_assignment storage isTarget isValue) lowers storage sub
  | goto => exact .cons storage (.fits (.goto (leads _ rfl))) .nil
  | print _ isArgument => exact chain_of_flows (flows_print storage isArgument) lowers storage sub
  | println _ isArgument =>
    have isArgument := fun node mem => (isArgument node (Option.mem_toList.mp mem)).1
    exact chain_of_flows (flows_print storage isArgument) lowers storage sub
  | read _ isTarget => exact chain_of_flows (flows_read storage isTarget) lowers storage sub

theorem chain_label (name : String) :
    Level table all reserved visible (Mark.annotate · [.label name]) :=
  .cons storage (.fits .label) .nil

theorem chain_jump {goal : String} (meets : Meets all ⟨reserved, visible, [], .value⟩ goal)
    (name : String) : Level table all reserved visible (Mark.annotate · [.jmp goal, .label name]) :=
  .cons storage (.fits (.jmp meets)) (chain_label storage name)

theorem chain_labelCode :
    Level table all reserved visible (Mark.annotate · (labelCode last node)) := by
  unfold labelCode
  split
  next => exact chain_label storage _
  next => exact .nil

end Simple

theorem label_mem_statementsMarks {m : Mark} {line : Nat} (mem : line ∈ nodes.map Node.line)
    (fresh : last ≠ some line) :
    (.label (lineLabel line), m) ∈ statementsMarks target table m last nodes := by
  induction nodes generalizing last with
  | nil => cases mem
  | cons node nodes ih =>
    rw [statementsMarks]
    by_cases eq : node.line = line
    · have starts : (node.site [] last).starts := by
        simp [Node.site, eq, fresh]
      have own : labelCode last node = [.label (lineLabel line)] := by
        rw [labelCode, if_pos starts, eq]
      obtain ⟨id, line, kind, children⟩ := node
      unfold statementMarks
      rw [own]
      exact mem_append_left _ (mem_append_left _ (mem_singleton_self _))
    · have later : line ∈ nodes.map Node.line := by
        rcases mem_cons.mp mem with same | later
        · exact absurd same.symm eq
        · exact later
      have fresh : node.lastLine ≠ some line := by
        unfold Node.lastLine
        split
        next => simpa using eq
        next => simp
      exact mem_append_right _ (ih later fresh)

theorem chain_statements {m : Mark}
    (h : ∀ node ∈ nodes, ∀ last, statementMarks target table m last node ⊆ all →
      Chain table all m (statementMarks target table m last node) m)
    (sub : statementsMarks target table m last nodes ⊆ all) :
    Chain table all m (statementsMarks target table m last nodes) m := by
  induction nodes generalizing last with
  | nil =>
    rw [statementsMarks]
    exact .nil
  | cons node nodes ih =>
    rw [statementsMarks] at sub ⊢
    have first := h node (mem_cons_self ..) last fun step mem =>
      sub (mem_append_left _ mem)
    exact first.append (ih (fun other mem => h other (mem_cons_of_mem _ mem))
      fun step mem => sub (mem_append_right _ mem))

theorem leads_enter {goal : String} (h : Leads all ⟨reserved, visible, [], .value⟩ goal) :
    Leads all (Mark.enter ⟨reserved, visible, [], .value⟩ table vars) goal := by
  obtain ⟨k, mem, eax, pending, _, le⟩ := h
  exact ⟨k, mem, eax, pending, rfl, Nat.le_trans le (Nat.le_add_right ..)⟩

section Blocks

variable (positive : ∀ (n : Nat) (v : Variable), table[n]? = some v → 0 < Shape.count v.dims)

include positive

theorem chain_block {id line : Nat} (storage : Storage table reserved visible)
    (assigned : Assigned table reserved vars)
    (h : Chain table all (Mark.enter ⟨reserved, visible, [], .value⟩ table vars)
      (statementsMarks target table (Mark.enter ⟨reserved, visible, [], .value⟩ table vars) none
        nodes) (Mark.enter ⟨reserved, visible, [], .value⟩ table vars)) :
    Level table all reserved visible (blockMarks target table · ⟨id, line, .block vars, nodes⟩) := by
  have inner := storage.enter assigned
  dsimp only [Level]
  rw [blockMarks]
  show Chain table all _ (Mark.annotate _ (grow (frameSize table vars)) ++
    statementsMarks target table (Mark.enter ⟨reserved, visible, [], .value⟩ table vars) none nodes ++
      Mark.annotate (Mark.enter ⟨reserved, visible, [], .value⟩ table vars)
        (shrink (frameSize table vars))) _
  by_cases size : frameSize table vars = 0
  · cases eq_nil_of_frameSize assigned size positive
    rw [grow, shrink, if_pos size, if_pos size]
    simp only [Mark.annotate, nil_append, append_nil]
    exact h
  · have entering : Chain table all ⟨reserved, visible, [], .value⟩
        (Mark.annotate ⟨reserved, visible, [], .value⟩ (grow (frameSize table vars)))
        (Mark.enter ⟨reserved, visible, [], .value⟩ table vars) := by
      rw [grow, if_neg size]
      exact .cons storage (.grow rfl inner.bound) .nil
    have leaving : Chain table all (Mark.enter ⟨reserved, visible, [], .value⟩ table vars)
        (Mark.annotate (Mark.enter ⟨reserved, visible, [], .value⟩ table vars)
          (shrink (frameSize table vars))) ⟨reserved, visible, [], .value⟩ := by
      rw [shrink, if_neg size]
      exact .cons inner (.shrink rfl rfl) .nil
    exact (entering.append h).append leaving

def Chains (target : Target) (table : Array Variable) (all : List (Instr × Mark)) (reserved : Nat)
    (visible : List Nat) (node : Node) : Prop :=
  Storage table reserved visible → Laid target table reserved node →
    ∀ seats, Lands seats node →
    (∀ line ∈ seats, Leads all ⟨reserved, visible, [], .value⟩ (lineLabel line)) →
    ∀ last, statementMarks target table ⟨reserved, visible, [], .value⟩ last node ⊆ all →
    Level table all reserved visible (statementMarks target table · last node)

variable
  (h : ∀ node ∈ nodes,
    Chains target table all (reserved + frameSize table vars) (vars ++ visible) node)

include h

/-- Jumps inside a block lead to its own lines too. -/
theorem chain_blockMarks {id line : Nat} (storage : Storage table reserved visible)
    (laid : BlockLaid target table reserved vars nodes)
    (lands : ∀ node ∈ nodes, Lands (nodes.map Node.line ++ seats) node)
    (leads : ∀ line ∈ seats, Leads all ⟨reserved, visible, [], .value⟩ (lineLabel line))
    (sub : blockMarks target table ⟨reserved, visible, [], .value⟩ ⟨id, line, .block vars, nodes⟩ ⊆
      all) :
    Level table all reserved visible (blockMarks target table · ⟨id, line, .block vars, nodes⟩) := by
  have inside : statementsMarks target table (Mark.enter ⟨reserved, visible, [], .value⟩ table vars)
      none nodes ⊆ all := by
    rw [blockMarks] at sub
    exact fun step mem => sub (mem_append_left _ (mem_append_right _ mem))
  have leads' : ∀ line ∈ nodes.map Node.line ++ seats,
      Leads all (Mark.enter ⟨reserved, visible, [], .value⟩ table vars) (lineLabel line) := by
    intro line mem
    rcases mem_append.mp mem with own | outer
    · exact ⟨_, inside (label_mem_statementsMarks own (by simp)), rfl, rfl, rfl, Nat.le_refl _⟩
    · exact leads_enter (leads line outer)
  refine chain_block positive storage laid.1 (chain_statements (fun node mem last sub => ?_) inside)
  exact h node mem (storage.enter laid.1) (laid.2 node mem) _ (lands node mem) leads' last sub

theorem chain_loop {id line bodyId bodyLine : Nat} {start limit step : Node}
    (isStart : IsStart table strings visible start) (isLimit : IsExpression table strings visible limit)
    (isStep : IsExpression table strings visible step) :
    Chains target table all reserved visible ⟨id, line, .loop, [start, limit, step,
      ⟨bodyId, bodyLine, .block vars, nodes⟩]⟩ := by
  rintro storage ⟨⟨started, advanced, tested⟩, assigned, laid⟩ seats ⟨_, lands⟩ leads last sub
  have body : (⟨bodyId, bodyLine, .block vars, nodes⟩ : Node) ∈ [start, limit, step,
      ⟨bodyId, bodyLine, .block vars, nodes⟩] := by simp
  dsimp only [Level]
  rw [statementMarks] at sub ⊢
  simp only [append_subset] at sub
  obtain ⟨_, ⟨⟨⟨⟨sub₁, sub₂⟩, sub₃⟩, sub₄⟩, sub₅⟩, sub₆⟩ := sub
  have toTest : Meets all ⟨reserved, visible, [], .value⟩ (loopTest line) :=
    ⟨_, sub₅ (mem_singleton_self _), rfl, rfl, rfl⟩
  have toStart : Meets all ⟨reserved, visible, [], .value⟩ (loopStart line) :=
    ⟨_, sub₂ (mem_cons_of_mem _ (mem_singleton_self _)), rfl, rfl, rfl⟩
  have round := chain_blockMarks positive h storage ⟨assigned _ body _ rfl, laid _ body _ rfl⟩
    (lands _ body _ rfl) leads sub₃
  obtain ⟨counter, result⟩ := advanced
  obtain ⟨flow, isCounter⟩ := flows_advance storage isStart isStep counter result sub₄
  have counterEq : counterPlace table start step = counter := by
    rw [counterPlace, result]
    rfl
  rw [counterEq] at sub₆ tested ⊢
  have again := chain_of_flows (flows_test storage isLimit isCounter toStart) tested storage sub₆
  have head := chain_of_flows (flows_start storage isStart) started storage sub₁
  exact (chain_labelCode storage).append
    (((((head.append (chain_jump storage toTest _)).append round).append
      (flow.chain storage)).append (chain_label storage _)).append again)

variable {id line thenId thenLine : Nat} {condition : Node}
  (isCondition : IsComparison table strings visible condition)

include isCondition

theorem chain_branch :
    Chains target table all reserved visible ⟨id, line, .branch, [condition,
      ⟨thenId, thenLine, .block vars, nodes⟩]⟩ := by
  rintro storage ⟨compared, assigned, laid⟩ seats ⟨_, lands⟩ leads last sub
  have body : (⟨thenId, thenLine, .block vars, nodes⟩ : Node) ∈ [condition,
      ⟨thenId, thenLine, .block vars, nodes⟩] := by simp
  dsimp only [Level]
  rw [statementMarks] at sub ⊢
  simp only [append_subset] at sub
  obtain ⟨_, ⟨sub₁, sub₂⟩, sub₃⟩ := sub
  have toEnd : Meets all ⟨reserved, visible, [], .value⟩ (branchEnd line) :=
    ⟨_, sub₃ (mem_cons_of_mem _ (mem_singleton_self _)), rfl, rfl, rfl⟩
  have head := chain_of_flows (flows_comparison storage isCondition toEnd) compared storage sub₁
  have block := chain_blockMarks positive h storage ⟨assigned _ body _ rfl, laid _ body _ rfl⟩
    (lands _ body _ rfl) leads sub₂
  exact (chain_labelCode storage).append
    ((head.append block).append (chain_jump storage toEnd _))

theorem chain_branchElse {elseId elseLine : Nat} {others : List Nat} {alternative : List Node}
    (h' : ∀ node ∈ alternative,
      Chains target table all (reserved + frameSize table others) (others ++ visible) node) :
    Chains target table all reserved visible ⟨id, line, .branch, [condition,
      ⟨thenId, thenLine, .block vars, nodes⟩, ⟨elseId, elseLine, .block others, alternative⟩]⟩ := by
  rintro storage ⟨compared, assigned, laid⟩ seats ⟨_, lands⟩ leads last sub
  have body : (⟨thenId, thenLine, .block vars, nodes⟩ : Node) ∈ [condition,
      ⟨thenId, thenLine, .block vars, nodes⟩, ⟨elseId, elseLine, .block others, alternative⟩] := by
    simp
  have other : (⟨elseId, elseLine, .block others, alternative⟩ : Node) ∈ [condition,
      ⟨thenId, thenLine, .block vars, nodes⟩, ⟨elseId, elseLine, .block others, alternative⟩] := by
    simp
  dsimp only [Level]
  rw [statementMarks] at sub ⊢
  simp only [append_subset] at sub
  obtain ⟨_, ⟨⟨⟨sub₁, sub₂⟩, sub₃⟩, sub₄⟩, sub₅⟩ := sub
  have toElse : Meets all ⟨reserved, visible, [], .value⟩ (branchElse line) :=
    ⟨_, sub₃ (mem_cons_of_mem _ (mem_singleton_self _)), rfl, rfl, rfl⟩
  have toEnd : Meets all ⟨reserved, visible, [], .value⟩ (branchEnd line) :=
    ⟨_, sub₅ (mem_singleton_self _), rfl, rfl, rfl⟩
  have head := chain_of_flows (flows_comparison storage isCondition toElse) compared storage sub₁
  have block := chain_blockMarks positive h storage ⟨assigned _ body _ rfl, laid _ body _ rfl⟩
    (lands _ body _ rfl) leads sub₂
  have block' := chain_blockMarks positive h' storage ⟨assigned _ other _ rfl, laid _ other _ rfl⟩
    (lands _ other _ rfl) leads sub₄
  exact (chain_labelCode storage).append
    ((((head.append block).append (chain_jump storage toEnd _)).append block').append
      (chain_label storage _))

end Blocks

theorem chains_statement (h : IsStatement table strings visible node)
    (positive : ∀ (n : Nat) (v : Variable), table[n]? = some v → 0 < Shape.count v.dims)
    (reserved : Nat) : Chains target table all reserved visible node := by
  induction h generalizing reserved with
  | @simple visible node h =>
    rintro storage ⟨lowers, _, _⟩ seats ⟨own, _⟩ leads last sub
    dsimp only [Level]
    rw [statementMarks_simple h.isPlain.1] at sub ⊢
    exact (chain_labelCode storage).append (chain_simple storage h lowers
      (fun goal eq => leads goal (own goal eq)) (append_subset.mp sub).2)
  | loop isStart isLimit isStep _ ih =>
    exact chain_loop positive (fun node mem => ih node mem _) isStart isLimit isStep
  | branch isCondition _ ih => exact chain_branch positive (fun node mem => ih node mem _) isCondition
  | branchElse isCondition _ _ ih ih' =>
    exact chain_branchElse positive (fun node mem => ih node mem _) isCondition
      fun node mem => ih' node mem _

theorem chain_bodyMarks {program : Program}
    (statements : ∀ node ∈ program.root.children, IsStatement table strings program.vars node)
    (lands : ∀ node ∈ program.root.children, Lands (program.root.children.map Node.line) node)
    (positive : ∀ (n : Nat) (v : Variable), table[n]? = some v → 0 < Shape.count v.dims)
    (laid : BlockLaid target table 0 program.vars program.root.children) :
    Chain table (bodyMarks target table program) (bodyMark table program)
      (bodyMarks target table program) (bodyMark table program) := by
  have mark : bodyMark table program =
      ⟨0 + frameSize table program.vars, program.vars ++ [], [], .value⟩ := rfl
  have storage := storage_nil.enter laid.1
  rw [append_nil] at mark storage
  have sub : statementsMarks target table (bodyMark table program) none program.root.children ⊆
      bodyMarks target table program := fun step mem =>
    mem_append_left _ (mem_append_right _ mem)
  have leads : ∀ line ∈ program.root.children.map Node.line,
      Leads (bodyMarks target table program) (bodyMark table program) (lineLabel line) :=
    fun line mem => ⟨_, sub (label_mem_statementsMarks mem (by simp)), rfl, rfl, rfl,
      Nat.le_refl _⟩
  have start : Chain table (bodyMarks target table program) (bodyMark table program)
      ((bodyMark table program).annotate (if target = .mingw then [.call "___main"] else []))
      (bodyMark table program) := by
    rw [mark]
    split
    next => exact .cons storage (.fits .start) .nil
    next => exact .nil
  have body := chain_statements (fun node mem last inside => ?_) sub
  · have stop : Chain table (bodyMarks target table program) (bodyMark table program)
        ((bodyMark table program).annotate [.mov (.imm 0) (.reg .eax)]) (bodyMark table program) := by
      rw [mark]
      exact .cons storage (.fits (.mov rfl (isWritable_general rfl))) .nil
    exact (start.append body).append stop
  · rw [mark] at inside leads ⊢
    exact chains_statement (statements node mem) positive _ storage (laid.2 node mem) _
      (lands node mem) leads last inside

end LineBasic.Lower
