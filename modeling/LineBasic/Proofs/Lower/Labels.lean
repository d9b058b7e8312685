import LineBasic.Proofs.Lower.Emission

/-!
What the code of statements is made of, and the labels in it.
-/

namespace LineBasic.Lower

open List

open Node (IsExpression IsStart IsComparison IsSimple IsStatement idsAll sitesAll)

variable {name : String} {symbols table : Array Variable} {strings : Array Literal}
  {scopes : List (List Nat)} {visible vars around : List Nat} {bound : String → Nat} {node : Node}
  {nodes : List Node} {target : Target} {last : Option Nat} {id line : Nat}

/-- How often a name is one of the labels of these lines. -/
def lineCount (name : String) (lines : List Nat) : Nat :=
  (tagNames lineTags lines).count name

@[simp] theorem lineCount_append (lines others : List Nat) :
    lineCount name (lines ++ others) = lineCount name lines + lineCount name others := by
  simp [lineCount, tagNames]

theorem count_le_lineCount {names : List String} {line : Nat}
    (h : names.Sublist (lineTags.map fun tag => tagged tag.1 line tag.2)) :
    names.count name ≤ lineCount name [line] := by
  have all : tagNames lineTags [line] = lineTags.map fun tag => tagged tag.1 line tag.2 := by
    simp [tagNames]
  rw [lineCount, all]
  exact h.count_le name

theorem startLines_sites (scopes : List Nat) (last : Option Nat) (node : Node) :
    startLines (node.sites scopes last) =
      (if (node.site [] last).starts then [node.line] else []) ++
        startLines (Node.sitesBelow scopes node.children) := by
  have same : (node.site scopes last).starts = (node.site [] last).starts := rfl
  rw [Node.sites_eq, startLines, filter_cons, startLines, same]
  split <;> rfl

theorem labelCount_labelCode_le (last : Option Nat) (node : Node) :
    labelCount name (labelCode last node) ≤
      lineCount name (if (node.site [] last).starts then [node.line] else []) := by
  unfold labelCode
  split
  next =>
    refine @count_le_lineCount name [lineLabel node.line] node.line ?_
    rw [lineLabel_eq]
    exact .cons_cons _ (nil_sublist _)
  next => exact Nat.zero_le _

theorem labelCount_labelCode {id line : Nat} {kind : NodeKind} (form : kind.form ≠ .simple)
    (last : Option Nat) :
    labelCount name (labelCode last ⟨id, line, kind, nodes⟩) = [lineLabel line].count name := by
  have starts : (Node.site [] last ⟨id, line, kind, nodes⟩).starts := by
    simp [Node.site, form]
  rw [labelCode, if_pos starts]
  rfl

theorem lineCount_sites {id line : Nat} {kind : NodeKind} (form : kind.form ≠ .simple)
    (scopes : List Nat) (last : Option Nat) :
    lineCount name (startLines (Node.sites scopes last ⟨id, line, kind, nodes⟩)) =
      lineCount name [line] + lineCount name (startLines (Node.sitesBelow scopes nodes)) := by
  have starts : (Node.site [] last ⟨id, line, kind, nodes⟩).starts := by
    simp [Node.site, form]
  rw [startLines_sites, if_pos starts, lineCount_append]

theorem scopes_of_child {vars : List Nat} {id line : Nat}
    (owned : ∀ block ∈ node.blocks, block.vars ∈ scopes)
    (below : ⟨id, line, .block vars, nodes⟩ ∈ node.children) :
    vars ∈ scopes ∧ ∀ inner ∈ nodes, ∀ block ∈ inner.blocks, block.vars ∈ scopes := by
  have inside (block : Node) (mem : block ∈ Node.blocks ⟨id, line, .block vars, nodes⟩) :
      block.vars ∈ scopes := by
    obtain ⟨nodeId, nodeLine, kind, children⟩ := node
    refine owned block ?_
    rw [Node.blocks_mk]
    exact mem_append_right _ (Node.mem_blocksAll.mpr ⟨_, below, mem⟩)
  rw [Node.blocks_mk] at inside
  refine ⟨inside _ (mem_append_left _ (mem_singleton_self _)), fun inner mem block h => ?_⟩
  exact inside block (mem_append_right _ (Node.mem_blocksAll.mpr ⟨inner, mem, h⟩))

theorem piece_counter {start step : Node} (isStart : IsStart symbols strings visible start)
    (isStep : IsExpression symbols strings visible step) :
    Piece table strings [] (.cmp (.reg .eax) (counterPlace table start step)) := by
  unfold counterPlace
  cases result : (advance table start step).result with
  | ok place => exact .cmp ((made_advance isStart isStep).result place result)
  | error => exact .word rfl

theorem composed_labelCode :
    Composed table strings scopes (fun name => labelCount name (labelCode last node))
      (labelCode last node) where
  pieces := by
    unfold labelCode
    split
    next => exact forall_mem_singleton.mpr (.label (isName_lineLabel _))
    next => exact fun _ mem => (not_mem_nil mem).elim
  labels _ := Nat.le_refl _

theorem composed_grow (mem : vars ∈ scopes) :
    Composed table strings scopes (fun _ => 0) (grow (frameSize table vars)) := by
  unfold grow
  split
  next => exact .nil
  next => exact .cons (.grow mem) rfl .nil

theorem composed_block (mem : vars ∈ scopes)
    (h : Composed table strings scopes bound (statementsCode target table none nodes)) :
    Composed table strings scopes bound (blockCode target table ⟨id, line, .block vars, nodes⟩) := by
  have shrunk : Composed table strings scopes (fun _ => 0) (shrink (frameSize table vars)) := by
    unfold shrink
    split
    next => exact .nil
    next => exact .words rfl
  rw [blockCode_block]
  exact (((composed_grow mem).append h).append shrunk).mono fun _ => by omega

abbrev statementBound (around : List Nat) (last : Option Nat) (node : Node) (name : String) : Nat :=
  lineCount name (startLines (node.sites around last)) + powerCount name node.ids

theorem composed_statements
    (h : ∀ node ∈ nodes, ∀ last, Composed table strings scopes (statementBound around last node)
      (statementCode target table last node)) :
    Composed table strings scopes
      (fun name => lineCount name (startLines (sitesAll around last nodes)) +
        powerCount name (idsAll nodes)) (statementsCode target table last nodes) := by
  induction nodes generalizing last with
  | nil => exact .nil
  | cons node nodes ih =>
    refine ((h node (mem_cons_self ..) last).append (@ih node.lastLine fun other mem =>
      h other (mem_cons_of_mem _ mem))).mono fun name => ?_
    rw [Node.sitesAll_cons, startLines_append, lineCount_append, powerCount_idsAll, statementBound]
    omega

theorem composed_simple (h : IsSimple symbols strings visible node) :
    Composed table strings scopes (fun name => powerCount name node.ids)
      (simpleCode target table node) := by
  unfold simpleCode
  cases h with
  | assign isTarget isValue => exact (made_assignment isTarget isValue).code.within
  | goto => exact .cons (.transfer rfl (isName_lineLabel _)) rfl .nil
  | print isFormat isArgument => exact (made_print isFormat isArgument).code.within
  | println isFormat isArgument =>
    exact (made_print isFormat fun node mem => (isArgument node (Option.mem_toList.mp mem)).1).code.within
  | read isFormat isTarget => exact (made_read isFormat isTarget).code.within

theorem composed_statement (h : IsStatement symbols strings visible node)
    (owned : ∀ block ∈ node.blocks, block.vars ∈ scopes) (around : List Nat) (last : Option Nat) :
    Composed table strings scopes (statementBound around last node)
      (statementCode target table last node) := by
  have lone {mark : String} (h : IsName mark) :
      Composed table strings scopes (fun name => [mark].count name) [.label mark] :=
    .label h (@Composed.nil _ _ _ fun _ => 0)
  have mark {mark goal : String} (h : IsName mark) (h' : IsName goal) :
      Composed table strings scopes (fun name => [mark].count name) [.jmp goal, .label mark] :=
    .cons (.transfer rfl h') rfl (lone h)
  induction h generalizing around last with
  | @simple visible node h =>
    rw [statementCode_simple h.isPlain.1]
    refine (composed_labelCode.append (composed_simple h)).mono fun name => ?_
    have mark := @labelCount_labelCode_le name last node
    rw [statementBound, startLines_sites, lineCount_append]
    omega
  | @loop visible vars id line bodyId bodyLine start limit step body isStart isLimit isStep _ ih =>
    obtain ⟨own, inner⟩ := @scopes_of_child _ _ body vars bodyId bodyLine owned (by simp)
    have round := @composed_statements table strings scopes (bodyId :: around) body target none
      fun node mem last => ih node mem (inner node mem) _ last
    have sites : Node.sitesBelow around [start, limit, step, ⟨bodyId, bodyLine, .block vars, body⟩] =
        sitesAll (bodyId :: around) none body := by
      simp [isStart.isPlain.sitesIn, isLimit.isPlain.sitesIn, isStep.isPlain.sitesIn,
        Node.sitesIn_block]
    rw [statementCode]
    refine (composed_labelCode.append ((((((made_start isStart).code.within.append
      (mark (isName_loopStart line) (isName_loopTest line))).append (composed_block own round)).append
        (made_advance isStart isStep).code.within).append (lone (isName_loopTest line))).append
          (made_test isLimit (piece_counter isStart isStep) (isName_loopStart line)).code.within)).mono
            fun name => ?_
    have marks := @count_le_lineCount name [lineLabel line, loopStart line, loopTest line] line (by
      rw [lineLabel_eq]
      exact .cons_cons _ (.cons_cons _ (.cons_cons _ (nil_sublist _))))
    rw [statementBound, labelCount_labelCode (by simp [NodeKind.form]),
      lineCount_sites (by simp [NodeKind.form]), sites]
    simp only [List.count_cons, List.count_nil, powerCount_ids, powerCount_idsAll] at marks ⊢
    omega
  | @branch visible vars id line thenId thenLine condition consequence isCondition _ ih =>
    obtain ⟨own, inner⟩ := @scopes_of_child _ _ consequence vars thenId thenLine owned (by simp)
    have taken := @composed_statements table strings scopes (thenId :: around) consequence target none
      fun node mem last => ih node mem (inner node mem) _ last
    have sites : Node.sitesBelow around [condition, ⟨thenId, thenLine, .block vars, consequence⟩] =
        sitesAll (thenId :: around) none consequence := by
      simp [isCondition.isPlain.sitesIn, Node.sitesIn_block]
    rw [statementCode]
    refine (composed_labelCode.append (((made_comparison isCondition
      (isName_branchEnd line)).code.within.append (composed_block own taken)).append
        (mark (isName_branchEnd line) (isName_branchEnd line)))).mono fun name => ?_
    have marks := @count_le_lineCount name [lineLabel line, branchEnd line] line (by
      rw [lineLabel_eq]
      exact .cons_cons _ (.cons _ (.cons _ (.cons _ (.cons_cons _ (nil_sublist _))))))
    rw [statementBound, labelCount_labelCode (by simp [NodeKind.form]),
      lineCount_sites (by simp [NodeKind.form]), sites]
    simp only [List.count_cons, List.count_nil, powerCount_ids, powerCount_idsAll] at marks ⊢
    omega
  | @branchElse visible vars others id line thenId thenLine elseId elseLine condition consequence
      alternative isCondition _ _ ih ih' =>
    obtain ⟨own, inner⟩ := @scopes_of_child _ _ consequence vars thenId thenLine owned (by simp)
    obtain ⟨own', inner'⟩ := @scopes_of_child _ _ alternative others elseId elseLine owned (by simp)
    have taken := @composed_statements table strings scopes (thenId :: around) consequence target none
      fun node mem last => ih node mem (inner node mem) _ last
    have other := @composed_statements table strings scopes (elseId :: around) alternative target none
      fun node mem last => ih' node mem (inner' node mem) _ last
    have sites : Node.sitesBelow around [condition, ⟨thenId, thenLine, .block vars, consequence⟩,
        ⟨elseId, elseLine, .block others, alternative⟩] =
        sitesAll (thenId :: around) none consequence ++ sitesAll (elseId :: around) none alternative := by
      simp [isCondition.isPlain.sitesIn, Node.sitesIn_block]
    rw [statementCode]
    refine (composed_labelCode.append (((((made_comparison isCondition
      (isName_branchElse line)).code.within.append (composed_block own taken)).append
        (mark (isName_branchElse line) (isName_branchEnd line))).append (composed_block own' other)).append
          (lone (isName_branchEnd line)))).mono fun name => ?_
    have marks := @count_le_lineCount name [lineLabel line, branchElse line, branchEnd line] line (by
      rw [lineLabel_eq]
      exact .cons_cons _ (.cons _ (.cons _ (.cons_cons _ (.cons_cons _ (nil_sublist _))))))
    rw [statementBound, labelCount_labelCode (by simp [NodeKind.form]),
      lineCount_sites (by simp [NodeKind.form]), sites, startLines_append, lineCount_append]
    simp only [List.count_cons, List.count_nil, powerCount_ids, powerCount_idsAll] at marks ⊢
    omega

theorem composed_body (h : ∀ node ∈ nodes, IsStatement symbols strings visible node)
    (owned : ∀ block ∈ Node.blocksAll nodes, block.vars ∈ scopes) (around : List Nat) :
    Composed table strings scopes
      (fun name => lineCount name (startLines (sitesAll around last nodes)) +
        powerCount name (idsAll nodes)) (statementsCode target table last nodes) :=
  composed_statements fun node mem last => composed_statement (h node mem)
    (fun block below => owned block (Node.mem_blocksAll.mpr ⟨node, mem, below⟩)) around last

end LineBasic.Lower
