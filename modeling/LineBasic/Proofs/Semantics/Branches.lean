import LineBasic.Proofs.Compile.Frames
import LineBasic.Proofs.Semantics.Correctness
import LineBasic.Proofs.Semantics.Evaluation

/-!
Where the branches of an accepted program lead.
-/

namespace LineBasic

open List Machine Lower

section Branches

variable {image : Image} {program : Program} {generator : Generator} {target : Target}
  {table : Array Variable} {code whole : List Instr} {block node lhs rhs : Node} {s : State}

theorem holds_of_isInfix {pc : Nat} (part : code <:+: whole) (h : image.Holds pc whole) :
    ∃ start, image.Holds start code := by
  obtain ⟨before, after, rfl⟩ := part
  exact ⟨_, (Image.holds_append.mp (Image.holds_append.mp h).1).2⟩

theorem statementCode_infix (h : program.WellFormed)
    (laid : BlockLaid target table 0 program.vars program.root.children)
    (isScope : block ∈ program.root.blocks) (mem : node ∈ block.children) :
    ∃ last, statementCode target table last node <:+:
      statementsCode target table none program.root.children := by
  rcases Node.mem_blocks isScope with rfl | ⟨statement, inside, below⟩
  · exact statementCode_part mem none
  · obtain ⟨before, part⟩ := @statementCode_part target table _ _ inside none
    have nested := nested_of_laid (laid.2 statement inside) (h.statements statement inside) below before
    obtain ⟨vars, kind⟩ := nested.isBlock
    obtain ⟨last, inner⟩ := @statementCode_part target table _ _ mem none
    refine ⟨last, (IsInfix.trans ?_ nested.part).trans part⟩
    obtain ⟨id, line, _, children⟩ := block
    cases kind
    rw [blockCode_block]
    exact inner.trans (infix_append _ _ _)

/-- A state with the top of the stack, the frame pointer and everything above the stack as in another
one. -/
structure Machine.State.Resumes (s s' : State) : Prop where
  esp : s'.reg .esp = s.reg .esp
  ebp : s'.reg .ebp = s.reg .ebp
  memory : ∀ address : Int32, (s.reg .esp).toInt ≤ address.toInt →
    s'.memory[address]? = s.memory[address]?

theorem resumes_of_atop {b : Scratch} {s' : State} (h : b.Atop s s') (none : b.words = []) :
    s.Resumes s' := by
  refine ⟨?_, h.ebp, h.memory⟩
  have top := h.esp
  rw [none] at top
  rw [← Int32.toInt_inj, top]
  simp

theorem branch_lies {last : Option Nat} {id line : Nat} {condition consequence : Node}
    {alternative : Option Node} (leads : image.labels.lookup (lineLabel line) = some s.pc)
    (lies : ∃ pc, image.Holds pc (statementCode target table last
      ⟨id, line, .branch, condition :: consequence :: alternative.toList⟩)) :
    ∃ skip goal,
      (Lowers target table ⟨id, line, .branch, condition :: consequence :: alternative.toList⟩ →
        (comparison table condition skip).Succeeds) ∧
      image.Holds s.pc (comparison table condition skip).code ∧
      image.Holds (s.pc + commandCount (comparison table condition skip).code)
        (blockCode target table consequence) ∧
      image.labels.lookup skip = some goal ∧
      match alternative with
      | some other => skip = branchElse line ∧ image.Holds goal (blockCode target table other)
      | none => skip = branchEnd line ∧ goal = s.pc + commandCount (statementCode target table none
          ⟨id, line, .branch, [condition, consequence]⟩) := by
  obtain ⟨pc, lies⟩ := lies
  have label {rest : List Instr} (lies : image.Holds pc
      (labelCode last ⟨id, line, .branch, condition :: consequence :: alternative.toList⟩ ++ rest)) :
      image.labels.lookup (lineLabel line) = some pc ∧ image.Holds pc rest := ⟨lies.1 _ rfl, lies.2.2⟩
  cases alternative with
  | none =>
    have shape (last : Option Nat) :
        statementCode target table last ⟨id, line, .branch, [condition, consequence]⟩ =
          labelCode last ⟨id, line, .branch, [condition, consequence]⟩ ++
            ((comparison table condition (branchEnd line)).code ++ blockCode target table consequence ++
              [.jmp (branchEnd line), .label (branchEnd line)]) := by
      rw [statementCode]
    simp only [Option.toList_none] at lies ⊢
    rw [shape] at lies ⊢
    obtain ⟨here, lies⟩ := label lies
    cases leads.symm.trans here
    obtain ⟨lies, ends⟩ := Image.holds_append.mp lies
    obtain ⟨compares, taken⟩ := Image.holds_append.mp lies
    refine ⟨branchEnd line, _, fun lowers => lowers, compares, taken, ends.2.2.1 _ rfl, rfl, ?_⟩
    have unlabelled :
        commandCount (labelCode none ⟨id, line, .branch, [condition, consequence]⟩) = 0 := rfl
    simp only [commandCount_append, commandCount_jump, unlabelled, Nat.zero_add, ← Nat.add_assoc]
    rfl
  | some other =>
    have shape : statementCode target table last ⟨id, line, .branch, [condition, consequence, other]⟩ =
        labelCode last ⟨id, line, .branch, [condition, consequence, other]⟩ ++
          ((comparison table condition (branchElse line)).code ++ blockCode target table consequence ++
            [.jmp (branchEnd line), .label (branchElse line)] ++ blockCode target table other ++
              [.label (branchEnd line)]) := by
      rw [statementCode]
    simp only [Option.toList_some] at lies ⊢
    rw [shape] at lies
    obtain ⟨here, lies⟩ := label lies
    cases leads.symm.trans here
    obtain ⟨lies, _⟩ := Image.holds_append.mp lies
    obtain ⟨lies, otherwise⟩ := Image.holds_append.mp lies
    obtain ⟨lies, ends⟩ := Image.holds_append.mp lies
    obtain ⟨compares, taken⟩ := Image.holds_append.mp lies
    rw [commandCount_append _ [_, _], commandCount_jump, ← Nat.add_assoc] at otherwise
    exact ⟨branchElse line, _, fun lowers => lowers, compares, taken, ends.2.2.1 _ rfl, rfl, otherwise⟩

theorem isComparison_of_branch {symbols : Array Variable} {strings : Array Literal} {visible : List Nat}
    {id line : Nat} {condition : Node} {blocks : List Node}
    (h : Node.IsStatement symbols strings visible ⟨id, line, .branch, condition :: blocks⟩) :
    Node.IsComparison symbols strings visible condition := by
  cases h with
  | simple isSimple => cases isSimple
  | branch isCondition => exact isCondition
  | branchElse isCondition => exact isCondition

/-- A branch of an accepted program goes on with its first block exactly if its condition holds for
the words that the two sides evaluate to, and otherwise with its second block or past its end. But at
the lowest word, from which none can be taken, `<` and `>=` go the other way. The stack, the frame
pointer and all variables are as before. -/
theorem branch_decides {source assembly : String} {config : Config} {id line id' line' : Nat}
    {operator : Operator} {type : Option ValueType} {consequence : Node} {alternative : Option Node}
    {a b : Int32} (parsed : (parseSource source config.collect).result = .ok program)
    (compiled : (compile source config).result = .ok assembly)
    (named : ∀ name ∈ config.sourceName, '\n' ∉ name.toList) (loads : load assembly = .ok image)
    (isScope : block ∈ program.root.blocks)
    (mem : ⟨id, line, .branch, ⟨id', line', .operator operator type, [lhs, rhs]⟩ :: consequence ::
      alternative.toList⟩ ∈ block.children)
    (leads : image.labels.lookup (lineLabel line) = some s.pc)
    (low : (s.reg .esp).toInt ≤ stackTop.toInt)
    (clears : ∀ operand ∈ [lhs, rhs], program.Clears (config.layout program) operand s)
    (room : -0x80000000 ≤ (s.reg .esp).toInt - 4 * max lhs.temporaries (1 + rhs.temporaries))
    (onLeft : s.word? image (config.layout program) lhs = some a)
    (onRight : s.word? image (config.layout program) rhs = some b) :
    ∃ s', image.Reaches s s' ∧ s.Resumes s' ∧
      if operator.taken a b then
        image.Holds s'.pc (blockCode config.target (config.layout program) consequence)
      else match alternative with
        | some other => image.labels.lookup (branchElse line) = some s'.pc ∧
            image.Holds s'.pc (blockCode config.target (config.layout program) other)
        | none => image.labels.lookup (branchEnd line) = some s'.pc ∧
            s'.pc = s.pc + commandCount (statementCode config.target (config.layout program) none
              ⟨id, line, .branch, [⟨id', line', .operator operator type, [lhs, rhs]⟩, consequence]⟩) := by
  have h := wellFormed_of_parseSource parsed
  obtain ⟨generated, rfl⟩ := generated_of_compile parsed compiled
  obtain ⟨texts, loaded⟩ := loaded_of_load h named loads
  obtain ⟨reserved, visible, _, laid, statements⟩ := laid_of_generated h generated isScope
  obtain ⟨last, part⟩ := statementCode_infix h generated.laid isScope mem
  obtain ⟨skip, goal, lowers, lies, taken, known, ends⟩ := branch_lies leads
    (holds_of_isInfix part (Image.holds_append.mp (Image.holds_append.mp loaded.holds).1).2)
  have inside {operand : Node} (isOperand : operand ∈ [lhs, rhs]) : operand ∈ program.root.nodes := by
    rw [Node.blocks_eq_filter] at isScope
    have isBranch := Node.mem_nodes_of_child (mem_filter.mp isScope).1 mem
    exact Node.mem_nodes_of_child (Node.mem_nodes_of_child isBranch (mem_cons_self ..)) isOperand
  obtain ⟨_, _, _, _, _, _, compares, isLhs, isRhs, eq⟩ := isComparison_of_branch (statements _ mem)
  cases eq
  have sees {operand : Node} (isOperand : operand ∈ [lhs, rhs]) (evaluates : operand.kind.evaluates) :
      ∃ seen, Node.IsExpression (config.layout program) program.strings seen operand ∧
        Above (config.layout program) seen s :=
    exists_visible h (inside isOperand) evaluates (clears operand isOperand)
  obtain ⟨seen, isLhs, above⟩ := sees (by simp) (isExpression_evaluates isLhs)
  obtain ⟨seen', isRhs, above'⟩ := sees (by simp) (isExpression_evaluates isRhs)
  have both : Above (config.layout program) (seen ++ seen') s := by
    intro n isIn
    rcases mem_append.mp isIn with isIn | isIn
    · exact above n isIn
    · exact above' n isIn
  have fits : (Scratch.ofState s).Room False s
      (Node.temporaries ⟨id', line', .operator operator type, [lhs, rhs]⟩) := by
    rw [Node.temporaries]
    exact .inr (by simpa [Scratch.ofState] using room)
  obtain ⟨lowered, _, _⟩ := laid.2 _ mem
  obtain ⟨s', reaches, pc, scratch, atop, none⟩ := (chooses_comparison both low compares
    (isLhs.mono .refl (subset_append_left ..)) (isRhs.mono .refl (subset_append_right ..))
    onLeft onRight fits skip (lowers lowered) lies goal known).exists_reaches
  refine ⟨s', reaches, resumes_of_atop atop none, ?_⟩
  cases decided : operator.taken a b with
  | true =>
    rw [decided] at pc
    rw [if_pos rfl, pc]
    exact taken
  | false =>
    rw [decided] at pc
    have pc : s'.pc = goal := pc
    rw [if_neg Bool.false_ne_true, pc]
    cases alternative with
    | some other => exact ⟨ends.1 ▸ known, ends.2⟩
    | none => exact ⟨ends.1 ▸ known, ends.2⟩

/-- The lowest word is below the next one, so the first block is run and not the other one. -/
theorem branch_decides_near_lowest :
    ∃ (program : Program) (assembly : String) (image : Image) (consequence : Node) (s s' : State),
      (parseSource "10 LET A = 1\n20 IF A < -2147483647 THEN\n30 PRINTLN\n40 ELSE\n50 END"
        false).result = .ok program ∧
      (compile "10 LET A = 1\n20 IF A < -2147483647 THEN\n30 PRINTLN\n40 ELSE\n50 END" {}).result =
        .ok assembly ∧ load assembly = .ok image ∧
      image.labels.lookup "LINE_20" = some s.pc ∧ s.memory[s.reg .esp]? = some Int32.minValue ∧
      image.Reaches s s' ∧ s.Resumes s' ∧
      image.Holds s'.pc (blockCode .mingw (Config.layout {} program) consequence) ∧
      consequence.children.length = 1 := by
  generalize hs : "10 LET A = 1\n20 IF A < -2147483647 THEN\n30 PRINTLN\n40 ELSE\n50 END" = source
  generalize hb : (((State.start "" 0).setReg .ebp 4096).setReg .esp 4092).store 4092 Int32.minValue = base
  have evaluated : ((parseSource source false).result.toOption.bind fun program =>
      (compile source {}).result.toOption.bind fun _ =>
      program.texts.toOption.bind fun texts =>
      (program.root.children.find? (·.kind == .branch)).bind fun node =>
      let image := programImage .mingw none (Config.layout {} program) program texts
      (image.labels.lookup "LINE_20").map fun pc =>
        (node.line, decide (node.children.map Node.kind =
            [.operator .less (some .int), .block [], .block []]),
          decide ((node.children.map fun child => child.children.map fun part =>
            (part.temporaries, State.word? image (Config.layout {} program) { base with pc } part)) =
            [[(1, some Int32.minValue), (1, some (-0x7fffffff))], [(1, none)], []]),
          program.root.nodes.all fun block => (block.kind.vars?.getD []).all fun n =>
            (Config.layout {} program)[n]?.all fun v => v.address.all fun (address : Nat) =>
              decide ((base.reg .esp).toInt + address ≤ (base.reg .ebp).toInt))) =
      some (20, true, true, true) := by
    subst hs hb
    decide +kernel
  obtain ⟨program, parsed, evaluated⟩ := exists_ok_of_bind evaluated
  obtain ⟨assembly, compiled, evaluated⟩ := exists_ok_of_bind evaluated
  obtain ⟨texts, decoded, evaluated⟩ := exists_ok_of_bind evaluated
  obtain ⟨⟨id, line, kind, children⟩, found, evaluated⟩ := Option.bind_eq_some_iff.mp evaluated
  obtain ⟨pc, leads, evaluated⟩ := Option.map_eq_some_iff.mp evaluated
  simp only [Prod.mk.injEq, decide_eq_true_eq] at evaluated
  obtain ⟨rfl, kinds, parts, clears⟩ := evaluated
  obtain ⟨⟨id', line', kind', sides⟩, rest, rfl, kind', kinds⟩ := map_eq_cons_iff.mp kinds
  obtain ⟨consequence, rest, rfl, _, kinds⟩ := map_eq_cons_iff.mp kinds
  obtain ⟨alternative, _, rfl, _, kinds⟩ := map_eq_cons_iff.mp kinds
  obtain rfl := map_eq_nil_iff.mp kinds
  simp only [map_cons, map_nil, List.cons.injEq, and_true] at parts
  obtain ⟨parts, inside, _⟩ := parts
  obtain ⟨lhs, rest, rfl, left, parts⟩ := map_eq_cons_iff.mp parts
  obtain ⟨rhs, _, rfl, right, parts⟩ := map_eq_cons_iff.mp parts
  obtain rfl := map_eq_nil_iff.mp parts
  simp only [Prod.mk.injEq] at left right
  obtain rfl : kind = .branch := by simpa using find?_some found
  cases kind'
  have top : base.reg .esp = 4092 ∧ base.memory[base.reg .esp]? = some Int32.minValue := by
    subst hb
    decide +kernel
  have isRoot : program.root.kind.vars?.isSome := by
    obtain ⟨vars, kind⟩ := (wellFormed_of_parseSource parsed).isProgram
    rw [kind]
    rfl
  have loads := @load_of_compile program texts source assembly {} parsed compiled (by simp)
    decoded
  have clears (operand : Node) : program.Clears (Config.layout {} program) operand { base with pc } := by
    intro block isBlock _ n isOwn v address stored place
    have all := all_eq_true.mp (all_eq_true.mp clears block isBlock) n isOwn
    rw [stored, Option.all_some, place, Option.all_some] at all
    exact of_decide_eq_true all
  obtain ⟨s', reaches, resumes, goes⟩ := @branch_decides _ program program.root lhs rhs { base with pc }
    source assembly {} id 20 id' line' .less (some .int) consequence (some alternative) _ _ parsed compiled
    (by simp) loads (Node.self_mem_blocks isRoot) (mem_of_find?_eq_some found) leads
    (by change (base.reg .esp).toInt ≤ _; rw [top.1]; decide) (fun operand _ => clears operand)
    (by change _ ≤ (base.reg .esp).toInt - _; rw [left.1, right.1, top.1]; decide) left.2 right.2
  rw [if_pos (by decide)] at goes
  exact ⟨program, assembly, _, consequence, { base with pc }, s', parsed, compiled, loads, leads, top.2,
    reaches, resumes, goes, by simpa using congrArg List.length inside⟩

/-- The code for `0 < -2147483648` goes on as if it held. -/
theorem branch_below_lowest :
    ∃ assembly,
      (compile "10 IF 0 < -2147483648 THEN\n20 PRINT \"yes\"\n30 ELSE\n40 PRINT \"no\"\n50 END\n"
        {}).result = .ok assembly ∧ run assembly "" = .ok ⟨"yes", 0, 17⟩ ∧
      ¬ Operator.less.Holds 0 Int32.minValue.toInt := by
  generalize hs : "10 IF 0 < -2147483648 THEN\n20 PRINT \"yes\"\n30 ELSE\n40 PRINT \"no\"\n50 END\n" = source
  -- what the text of the code is loaded as is known, so it need not be read
  have evaluated : ((parseSource source false).result.toOption.bind fun program =>
      (compile source {}).result.toOption.bind fun _ =>
      program.texts.toOption.map fun texts =>
        (programImage .mingw none (Config.layout {} program) program texts).run "") =
      some (.ok ⟨"yes", 0, 17⟩) := by
    subst hs
    decide +kernel
  obtain ⟨program, parsed, evaluated⟩ := exists_ok_of_bind evaluated
  obtain ⟨assembly, compiled, evaluated⟩ := exists_ok_of_bind evaluated
  obtain ⟨texts, decoded, runs⟩ := exists_ok_of_map evaluated
  have loads := @load_of_compile program texts source assembly {} parsed compiled
    (by simp) decoded
  refine ⟨assembly, compiled, ?_, by decide⟩
  rw [run, loads]
  exact congrArg (Except.mapError Fault.run) runs

end Branches

end LineBasic
