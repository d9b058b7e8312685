import LineBasic.Proofs.Compile.Image
import LineBasic.Proofs.Lower.Parts
import LineBasic.Proofs.Stack.Chain

/-!
The labels of an accepted program: each stands in one place, and every name is one of them.
-/

namespace LineBasic

open List Lower Machine

/-- The labels that an instruction refers to: where it jumps, and what it takes the address of. -/
def Instr.names : Instr → List String
  | .jmp goal | .jcc _ goal => [goal]
  | instr => instr.operands.filterMap fun
    | .addr name => some name
    | _ => none

/-- The labels of a program and what stands behind them. -/
structure LabelIntegrity (target : Target) (table : Array Variable) (program : Program)
    (code : List Instr) : Prop where
  once : (labelNames code).Nodup
  resolved : ∀ instr ∈ code, ∀ name ∈ instr.names, (labelNames code).count name = 1
  lines : ∀ n, lineLabel n ∈ labelNames code ↔
    ∃ statement ∈ Node.stepsAll program.root.children, statement.line = n
  starts : ∀ n statement, (Node.stepsAll program.root.children).find? (·.line == n) = some statement →
    .label (lineLabel n) :: ownCode target table statement <:+: code
  texts : ∀ (i : Nat) (literal : Literal), program.strings[i]? = some literal →
    [.label (textLabel i), .ascii literal.content] <:+: code

namespace Node

mutual

theorem lines_sites (scopes : List Nat) (last : Option Nat) : (node : Node) →
    (sites scopes last node).map Site.line = node.steps.map Node.line
  | ⟨id, line, kind, children⟩ => by
    rw [sites_eq, steps_eq, map_cons, map_cons, lines_sitesBelow scopes children]
    rfl

theorem lines_sitesBelow (scopes : List Nat) : (nodes : List Node) →
    (sitesBelow scopes nodes).map Site.line = (stepsBelow nodes).map Node.line
  | [] => by simp
  | ⟨id, line, kind, children⟩ :: nodes => by
    rw [sitesBelow_cons, stepsBelow_cons, map_append, map_append,
      lines_sitesBelow scopes nodes]
    congr 1
    by_cases isBlock : ∃ vars, kind = .block vars
    · obtain ⟨vars, rfl⟩ := isBlock
      rw [sitesIn_block, stepsIn_block]
      exact lines_sitesAll (id :: scopes) none children
    · have other : ∀ vars, kind ≠ .block vars := fun vars eq => isBlock ⟨vars, eq⟩
      rw [sitesIn_other other, stepsIn_other other]
      rfl

theorem lines_sitesAll (scopes : List Nat) (last : Option Nat) : (nodes : List Node) →
    (sitesAll scopes last nodes).map Site.line = (stepsAll nodes).map Node.line
  | [] => by simp
  | node :: nodes => by
    rw [sitesAll_cons, stepsAll_cons, map_append, map_append,
      lines_sites scopes last node, lines_sitesAll scopes node.lastLine nodes]

end

theorem find?_stepsBelow {p : Node → Bool} {nodes : List Node} {found : Node}
    (h : (stepsBelow nodes).find? p = some found) :
    ∃ id line vars statements, ⟨id, line, .block vars, statements⟩ ∈ nodes ∧
      (stepsAll statements).find? p = some found := by
  induction nodes with
  | nil => simp at h
  | cons node nodes ih =>
    rw [stepsBelow_cons, find?_append] at h
    obtain ⟨id, line, kind, children⟩ := node
    by_cases isBlock : ∃ vars, kind = .block vars
    · obtain ⟨vars, rfl⟩ := isBlock
      rw [stepsIn_block] at h
      rcases Option.or_eq_some_iff.mp h with first | ⟨_, later⟩
      · exact ⟨id, line, vars, children, mem_cons_self .., first⟩
      · obtain ⟨id, line, vars, statements, mem, below⟩ := ih later
        exact ⟨id, line, vars, statements, mem_cons_of_mem _ mem, below⟩
    · rw [stepsIn_other fun vars eq => isBlock ⟨vars, eq⟩] at h
      obtain ⟨id, line, vars, statements, mem, below⟩ := ih h
      exact ⟨id, line, vars, statements, mem_cons_of_mem _ mem, below⟩

end Node

namespace Lower

open Node (IsStatement)

variable {target : Target} {symbols table : Array Variable} {strings : Array Literal}
  {visible : List Nat} {top n : Nat} {last : Option Nat} {node found : Node} {nodes : List Node}

theorem starts_of_ne (h : last ≠ some node.line) : (node.site [] last).starts := by
  simp [Node.site, h]

theorem statementCode_eq (target : Target) (table : Array Variable) (last : Option Nat) (node : Node) :
    statementCode target table last node = labelCode last node ++ ownCode target table node := by
  obtain ⟨id, line, kind, children⟩ := node
  have start : labelCode none ⟨id, line, kind, children⟩ = [.label (lineLabel line)] := by
    rw [labelCode, if_pos (starts_of_ne (by simp))]
  unfold ownCode statementCode
  rw [start]
  rfl

theorem statementCode_of_ne (h : last ≠ some node.line) :
    statementCode target table last node =
      .label (lineLabel node.line) :: ownCode target table node := by
  rw [statementCode_eq, labelCode, if_pos (starts_of_ne h)]
  rfl

theorem label_part_statements
    (h : ∀ node ∈ nodes, ∀ last, last ≠ some n → node.steps.find? (·.line == n) = some found →
      .label (lineLabel n) :: ownCode target table found <:+: statementCode target table last node)
    (fresh : last ≠ some n) (first : (Node.stepsAll nodes).find? (·.line == n) = some found) :
    .label (lineLabel n) :: ownCode target table found <:+:
      statementsCode target table last nodes := by
  induction nodes generalizing last with
  | nil => simp at first
  | cons node nodes ih =>
    rw [statementsCode]
    rw [Node.stepsAll_cons, find?_append] at first
    rcases Option.or_eq_some_iff.mp first with own | ⟨none, later⟩
    · exact (h node (mem_cons_self ..) last fresh own).trans (prefix_append _ _).isInfix
    · have other : node.line ≠ n := by
        have := find?_eq_none.mp none node (by rw [Node.steps_eq]; exact mem_cons_self ..)
        simpa using this
      have fresh' : node.lastLine ≠ some n := by
        unfold Node.lastLine
        split
        · simpa using other
        · simp
      exact (ih (fun node mem => h node (mem_cons_of_mem _ mem)) fresh' later).trans
        (suffix_append _ _).isInfix

theorem label_part (laid : Laid target table top node) (h : IsStatement symbols strings visible node)
    (fresh : last ≠ some n) (first : node.steps.find? (·.line == n) = some found) :
    .label (lineLabel n) :: ownCode target table found <:+: statementCode target table last node := by
  induction laid generalizing visible last with
  | @node top node _ _ _ ih =>
    rw [Node.steps_eq, find?_cons] at first
    split at first
    next here =>
      cases first
      have line : found.line = n := by simpa using here
      have own := @statementCode_of_ne target table last found (line ▸ fresh)
      rw [line] at own
      exact ⟨[], [], by rw [nil_append, append_nil, own]⟩
    next elsewhere =>
      obtain ⟨id, line, vars, statements, mem, below⟩ := Node.find?_stepsBelow first
      have inner := h.block_statements mem
      have part : .label (lineLabel n) :: ownCode target table found <:+:
          statementsCode target table none statements :=
        label_part_statements (fun node inside last fresh first =>
          ih _ mem vars rfl node inside (inner node inside) fresh first) (by simp) below
      have whole : statementsCode target table none statements <:+:
          blockCode target table ⟨id, line, .block vars, statements⟩ := by
        rw [blockCode_block]
        exact infix_append _ _ _
      exact (part.trans whole).trans (blockCode_part h mem last)

end Lower

theorem Chain.exists_label {table : Array Variable} {all steps : List (Instr × Mark)} {m m₁ k : Mark}
    {instr : Instr} {goal : String} (h : Chain table all m steps m₁) (mem : (instr, k) ∈ steps)
    (jump : instr = .jmp goal ∨ ∃ condition, instr = .jcc condition goal) :
    ∃ mark, (.label goal, mark) ∈ all := by
  induction h with
  | nil => cases mem
  | @cons m m₁ m₂ first rest storage moves chain ih =>
    rcases mem_cons.mp mem with here | later
    · cases here
      cases moves with
      | fits fits =>
        rcases jump with rfl | ⟨condition, rfl⟩
        · cases fits with
          | jmp meets => exact ⟨meets.choose, meets.choose_spec.1⟩
          | goto leads => exact ⟨leads.choose, leads.choose_spec.1⟩
        · cases fits with
          | jcc meets => exact ⟨meets.choose, meets.choose_spec.1⟩
      | grow => rcases jump with eq | ⟨_, eq⟩ <;> cases eq
      | shrink => rcases jump with eq | ⟨_, eq⟩ <;> cases eq
    · exact ih later

theorem mem_labelNames {code : List Instr} {name : String} (h : .label name ∈ code) :
    name ∈ labelNames code :=
  mem_filterMap.mpr ⟨.label name, h, rfl⟩

section Program

variable {target : Target} {sourceName : Option String} {program : Program}
  {table : Array Variable} {code : List Instr}

theorem map_fst_bodyMarks_part (target : Target) (sourceName : Option String)
    (table : Array Variable) (program : Program) :
    (bodyMarks target table program).map Prod.fst <:+:
      programCode target sourceName table program := by
  rw [map_fst_bodyMarks, programCode, prologue]
  refine ⟨header target sourceName program.strings.toList ++
    [.text, .globl (target.symbol "main"), .label (target.symbol "main")] ++
    ([.push (.reg .ebp), .mov (.reg .esp) (.reg .ebp)] ++
      grow (frameSize table (program.root.kind.vars?.getD []))), [.leave, .ret], ?_⟩
  simp only [append_assoc, cons_append, nil_append]

theorem jump_mem_bodyMarks {instr : Instr} {goal : String}
    (mem : instr ∈ programCode target sourceName table program)
    (jump : instr = .jmp goal ∨ ∃ condition, instr = .jcc condition goal) :
    ∃ m, (instr, m) ∈ bodyMarks target table program := by
  have isCommand : instr.isCommand = true := by
    rcases jump with rfl | ⟨_, rfl⟩ <;> rfl
  have other {code : List Instr} (h : code.all (fun instr => instr.names.isEmpty) = true) :
      instr ∉ code := by
    intro inside
    have empty := all_eq_true.mp h instr inside
    rcases jump with rfl | ⟨_, rfl⟩ <;> cases empty
  simp only [programCode_eq, mainCode, prologue, mem_append] at mem
  have inside : instr ∈ statementsCode target table none program.root.children := by
    rcases mem with mem | ((mem | (mem | mem) | mem) | mem) | mem
    · rw [not_command_of_header mem] at isCommand
      cases isCommand
    · exact absurd mem (other rfl)
    · exact absurd mem (other rfl)
    · refine absurd mem (other ?_)
      unfold grow
      split <;> rfl
    · refine absurd mem (other ?_)
      split <;> rfl
    · exact mem
    · exact absurd mem (other rfl)
  have marked : instr ∈ (bodyMarks target table program).map Prod.fst := by
    rw [map_fst_bodyMarks]
    exact mem_append_left _ (mem_append_right _ inside)
  obtain ⟨⟨_, m⟩, found, rfl⟩ := mem_map.mp marked
  exact ⟨m, found⟩

section

variable (h : program.WellFormed)

include h

section

variable (generated : Generated target sourceName program table code) {instr : Instr} {goal : String}
  (mem : instr ∈ programCode target sourceName table program)
  (jump : instr = .jmp goal ∨ ∃ condition, instr = .jcc condition goal)

include generated mem jump

theorem label_mem_bodyMarks : .label goal ∈ (bodyMarks target table program).map Prod.fst := by
  obtain ⟨m, inside⟩ := @jump_mem_bodyMarks target sourceName program table instr goal mem jump
  have chain := chain_bodyMarks (statements_of_generated h generated) h.lands
    (count_pos_of_generated h generated) generated.laid
  obtain ⟨mark, found⟩ := chain.exists_label inside jump
  exact mem_map_of_mem found

theorem jump_resolved : goal ∈ labelNames (programCode target sourceName table program) :=
  mem_labelNames ((map_fst_bodyMarks_part target sourceName table program).subset
    (label_mem_bodyMarks h generated mem jump))

end

theorem address_resolved {instr : Instr} {name : String}
    (mem : instr ∈ programCode target sourceName table program)
    (operand : .addr name ∈ instr.operands) :
    name ∈ labelNames (programCode target sourceName table program) := by
  rw [programCode_eq, mem_append] at mem
  rcases mem with mem | mem
  · have noCommand := not_command_of_header mem
    cases instr with
    | file | «section» | text | globl | ascii | label => cases operand
    | _ => cases noCommand
  · have resolved := (good_mainCode h (labelled_contents program) instr mem).resolved _ operand
    simp only [operandOf, Option.isSome_map] at resolved
    obtain ⟨d, found⟩ := Option.isSome_iff_exists.mp resolved
    obtain ⟨i, text, inside, rfl⟩ := mem_dataOf.mp (mem_of_find?_eq_some found)
    have label : textLabel i = name := by simpa [datum] using find?_some found
    have bound : i < program.strings.size := by
      have := (List.getElem?_eq_some_iff.mp inside).1
      simpa using this
    rw [programCode_eq, labelNames, filterMap_append, ← labelNames, labelNames_header h]
    refine mem_append_left _ (mem_tagNames.mpr ⟨i, mem_range.mpr bound, ("LC", ""), ?_, ?_⟩)
    · exact mem_singleton_self _
    · rw [← label, textLabel_eq]

theorem text_part {i : Nat} {literal : Literal} (found : program.strings[i]? = some literal) :
    [.label (textLabel i), .ascii literal.content] <:+:
      programCode target sourceName table program := by
  have code : textCode literal = [.label (textLabel i), .ascii literal.content] := by
    rw [textCode, labels_of_wellFormed h i literal (by simpa using found)]
  have mem : literal ∈ program.strings.toList := by
    simpa using Array.mem_of_getElem? found
  have part : textCode literal <:+: program.strings.toList.flatMap textCode :=
    infix_of_mem_flatten (mem_map_of_mem mem)
  have nonempty : (program.strings.toList.flatMap textCode).isEmpty = false := by
    rw [isEmpty_eq_false_iff]
    intro empty
    rw [empty, code] at part
    exact absurd (infix_nil.mp part) (by simp)
  have head : program.strings.toList.flatMap textCode <:+:
      header target sourceName program.strings.toList := by
    rw [header_eq, nonempty]
    exact (suffix_cons _ _).isInfix.trans (suffix_append _ _).isInfix
  rw [← code, programCode_eq]
  exact (part.trans head).trans (prefix_append _ _).isInfix

theorem start_part
    (generated : Generated target sourceName program table code) {n : Nat} {statement : Node}
    (first : (Node.stepsAll program.root.children).find? (·.line == n) = some statement) :
    .label (lineLabel n) :: ownCode target table statement <:+:
      programCode target sourceName table program := by
  have part : .label (lineLabel n) :: ownCode target table statement <:+:
      statementsCode target table none program.root.children :=
    label_part_statements (fun node mem last fresh first =>
      label_part (generated.laid.2 node mem) (h.statements node mem) fresh first) (by simp) first
  refine part.trans ?_
  rw [programCode]
  exact infix_append _ _ _

theorem line_of_label {n : Nat}
    (mem : lineLabel n ∈ labelNames (programCode target sourceName table program)) :
    ∃ statement ∈ Node.stepsAll program.root.children, statement.line = n := by
  have count := @labelCount_programCode_le program target sourceName table h (lineLabel n)
  have found := count_pos_iff.mp (Nat.lt_of_lt_of_le (count_pos_iff.mpr mem) count)
  have isLine : IsTag "LINE_" "" := by decide
  rw [lineLabel_eq] at found
  rcases mem_append.mp found with text | found
  · obtain ⟨i, _, tag, inside, eq⟩ := mem_tagNames.mp text
    rw [mem_singleton.mp inside] at eq
    obtain ⟨different, _⟩ := tagged_inj (by decide) isLine eq
    exact absurd different (by decide)
  rcases mem_cons.mp found with main | found
  · have own : target.symbol "main" ∈ tagNames lineTags [n] :=
      mem_tagNames.mpr ⟨n, mem_singleton_self n, ("LINE_", ""), by simp [lineTags], main⟩
    exact absurd own (not_mem_tagNames (plain_main target))
  rcases mem_append.mp found with line | power
  · obtain ⟨m, started, tag, inside, eq⟩ := mem_tagNames.mp line
    have isTag := @isTag_of_mem tag (mem_append_left _ (mem_append_right _ inside))
    obtain ⟨_, rfl, _⟩ := tagged_inj isTag isLine eq
    obtain ⟨site, isSite, line⟩ := mem_map.mp started
    have lines := Node.lines_sitesAll [program.root.id] none program.root.children
    have known : m ∈ (Node.stepsAll program.root.children).map Node.line := by
      rw [← lines, ← line]
      exact mem_map_of_mem (mem_filter.mp isSite).1
    exact mem_map.mp known
  · obtain ⟨i, _, tag, inside, eq⟩ := mem_tagNames.mp power
    have isTag := @isTag_of_mem tag (mem_append_right _ inside)
    obtain ⟨same, _⟩ := tagged_inj isTag isLine eq
    simp only [powerTags, mem_cons, not_mem_nil, or_false] at inside
    rcases inside with rfl | rfl <;> exact absurd same (by decide)

end

end Program

/-- The labels of every source that is accepted. -/
theorem label_integrity {source assembly : String} {config : Config}
    (compiled : (compile source config).result = .ok assembly) :
    ∃ program, (parseSource source config.collect).result = .ok program ∧
      assembly = assemble
        (programCode config.target config.sourceName (config.layout program) program) ∧
      LabelIntegrity config.target (config.layout program) program
        (programCode config.target config.sourceName (config.layout program) program) := by
  obtain ⟨program, parsed⟩ := parsed_of_compile compiled
  obtain ⟨generated, assembled⟩ := generated_of_compile parsed compiled
  have h := wellFormed_of_parseSource parsed
  have once := @nodup_labelNames program config.target config.sourceName (config.layout program) h
  refine ⟨program, parsed, assembled, once, ?_, fun n => ⟨line_of_label h, ?_⟩, ?_, ?_⟩
  · intro instr mem name named
    refine count_eq_one_of_mem once ?_
    unfold Instr.names at named
    split at named
    next goal =>
      rw [mem_singleton.mp named]
      exact jump_resolved h generated mem (.inl rfl)
    next condition goal =>
      rw [mem_singleton.mp named]
      exact jump_resolved h generated mem (.inr ⟨condition, rfl⟩)
    next =>
      obtain ⟨operand, inside, eq⟩ := mem_filterMap.mp named
      cases operand with
      | addr label =>
        cases eq
        exact address_resolved h mem inside
      | _ => cases eq
  · rintro ⟨statement, mem, line⟩
    have found : ((Node.stepsAll program.root.children).find? (·.line == n)).isSome :=
      find?_isSome.mpr ⟨statement, mem, by simpa using line⟩
    obtain ⟨first, found⟩ := Option.isSome_iff_exists.mp found
    exact mem_labelNames ((start_part h generated found).subset (mem_cons_self ..))
  · intro n statement first
    exact start_part h generated first
  · intro i literal found
    exact text_part h found

/-- A line with three assignments has one label; loop, branch and power have theirs. -/
theorem label_integrity_of_branch :
    ∃ program, (parseSource ("10 DIM A[3] = \x7b1, 2, 3\x7d\n20 FOR I = 0 TO 2\n" ++
        "30 IF A[I] > 1 THEN\n40 PRINT \"%d\\n\", A[I] ^ 2\n50 END\n60 END\n70 GOTO 20")
        false).result = .ok program ∧
      labelNames (programCode .elf none (Config.layout { target := .elf } program) program) =
        ["LC0", "main", "LINE_10", "LINE_20", "FOR_20_START", "LINE_30", "LINE_40", "POW_31_LOOP",
          "POW_31_TEST", "IF_30_END", "FOR_20_TEST", "LINE_70"] ∧
      LabelIntegrity .elf (Config.layout { target := .elf } program) program
        (programCode .elf none (Config.layout { target := .elf } program) program) := by
  generalize hs : ("10 DIM A[3] = \x7b1, 2, 3\x7d\n20 FOR I = 0 TO 2\n" ++
    "30 IF A[I] > 1 THEN\n40 PRINT \"%d\\n\", A[I] ^ 2\n50 END\n60 END\n70 GOTO 20") = source
  have evaluated : ((compile source { target := .elf }).result.toOption.bind fun _ =>
      (parseSource source false).result.toOption.map fun program =>
        labelNames (programCode .elf none (Config.layout { target := .elf } program) program)) =
      some ["LC0", "main", "LINE_10", "LINE_20", "FOR_20_START", "LINE_30", "LINE_40", "POW_31_LOOP",
        "POW_31_TEST", "IF_30_END", "FOR_20_TEST", "LINE_70"] := by
    subst hs
    decide +kernel
  obtain ⟨assembly, compiled, evaluated⟩ := exists_ok_of_bind evaluated
  obtain ⟨program, parsed, names⟩ := exists_ok_of_map evaluated
  obtain ⟨program', parsed', _, integrity⟩ := label_integrity compiled
  cases parsed.symm.trans parsed'
  exact ⟨program, parsed, names, integrity⟩

end LineBasic
