import LineBasic.Proofs.Parse.Declarations

/-!
Every statement that is read is one of the grammar's, and does with names and types what it should.
-/

namespace LineBasic

open List

namespace Parse

variable {s s₁ s' : TokenStream} {env env₁ env' : Env} {u : Unit} {used : List Token} {word : Token}

theorem Yields.letStatement_eq {name : Token} (isName : name.kind = .identifier)
    (h : (Parse.letStatement name).Yields s env u s' env') :
    ∃ indices equal value, s.Takes (indices ++ equal :: value) s' ∧
      Grammar.Variable (name :: indices) ∧ equal.kind = .operator .equal ∧ Grammar.Expression value ∧
      env.Same env' ∧ (env.collect = false → ∃ node env₁,
        env.Writes name.text (namesIn (indices ++ equal :: value)) false node env₁ ∧
          env' = env₁.attached node) ∧
      (env.collect = false → AllQuoted (indices ++ equal :: value) → env.Attaches env') := by
  obtain ⟨nodes, s₁, env₁, h₁, h⟩ := yields_bind.mp h
  obtain ⟨indices, takes₁, isMany, reads₁⟩ := h₁.indices_reads understands_expression
  obtain ⟨equal, s₂, read, _, isEqual, h⟩ := yields_expect_bind.mp h
  obtain ⟨valueNode, s₃, env₂, h₃, h⟩ := yields_bind.mp h
  obtain ⟨value, takes₂, isValue, reads₂⟩ := understands_expression h₃
  have reads : env.Reads (indices ++ equal :: value) (nodes ++ [valueNode]) env₂ :=
    reads₁.append (reads₂.skip_cons (by simp [isEqual]))
  obtain ⟨target, env₃, written, h⟩ := yields_lift_bind.mp h
  obtain ⟨node, env₄, assigned, h⟩ := yields_lift_bind.mp h
  obtain ⟨check, rfl⟩ := yields_lift.mp h
  obtain rfl := Check.yields_attach.mp check
  refine ⟨indices, equal, value, takes_append takes₁ (takes_cons read takes₂), .mk isName isMany,
    isEqual, isValue, ?_, fun strict => ⟨node, env₄, ?_, rfl⟩, fun strict quoted => ?_⟩
  · exact ((reads.same.trans ((Check.keeps_writtenVariable _ _).same written)).trans
      ((Check.keeps_assignment _ _ _).same assigned)).trans (.attached _ _)
  · exact Check.Yields.assignment_writes (reads.expresses strict) written assigned strict
  · obtain ⟨number, type, isReference, _, builds, rfl, rfl⟩ := Check.Yields.assignment_builds
      (reads.builds strict quoted) written assigned (reads.same.collect.trans strict)
    exact builds.attaches isReference type

theorem Yields.letStatement_completes {name : Token} {word : List Token}
    (isWord : Grammar.Optional (Grammar.Word .LET) word) (isName : name.kind = .identifier)
    (h : (Parse.letStatement name).Yields s env u s' env') :
    ∃ used, s.Takes used s' ∧ env.Completes (word ++ name :: used) env' := by
  obtain ⟨indices, equal, value, takes, isTarget, isEqual, isValue, same, writes, attaches⟩ :=
    h.letStatement_eq isName
  refine ⟨indices ++ equal :: value, takes, .of_same same ?_ (fun strict => ?_) fun strict quoted =>
    attaches strict fun token mem => quoted token ?_⟩
  · exact fun opened => .assign isWord isTarget isEqual isValue
  · obtain ⟨node, env₁, written, rfl⟩ := writes strict
    have actions : NameAction.ofStatement (word ++ name :: (indices ++ equal :: value)) =
        [.write name.text (namesIn (indices ++ equal :: value))] := by
      cases isWord with
      | none => simp [NameAction.ofStatement, isName, NameAction.writes]
      | some isWord =>
        cases isWord with
        | mk isLet => simp [NameAction.ofStatement, isLet, NameAction.writes]
    rw [actions]
    exact .write written
  · exact mem_append_right _ (mem_cons_of_mem _ mem)

theorem Yields.gotoStatement_completes (isWord : word.kind = .keyword .GOTO)
    (h : Parse.gotoStatement.Yields s env u s' env') : Env.CompletesBehind word s env s' env' := by
  obtain ⟨token, s₁, read, _, isInteger, h⟩ := yields_expect_bind.mp h
  obtain ⟨target, _, _, h₂, h⟩ := yields_bind.mp h
  obtain ⟨rfl, rfl, value, bound⟩ := yields_lineNumber h₂
  obtain ⟨n, _, check, h⟩ := yields_lift_bind.mp h
  obtain ⟨rfl, rfl⟩ := Check.yields_node.mp check
  obtain ⟨_, _, check, h⟩ := yields_lift_bind.mp h
  obtain rfl := Check.yields_attach.mp check
  obtain ⟨rfl, rfl⟩ := yields_modifyThe.mp h
  have numbered : env.Same { env with size := env.size + 1 } := ⟨rfl, rfl, rfl⟩
  have attached := Env.Same.attached { env with size := env.size + 1 }
    ⟨env.size, env.line, .goto target, []⟩
  have same : env.Same (({ env with size := env.size + 1 }.attached
      ⟨env.size, env.line, .goto target, []⟩).jumped target token.position) :=
    (numbered.trans attached).trans ⟨rfl, rfl, rfl⟩
  refine ⟨[token], takes_cons read takes_nil, same.constructs ▸ .goto isWord ⟨isInteger, value, bound⟩,
    same.collect, same.numbers, fun _ => ?_, fun _ _ => .goto target token.position⟩
  have actions : NameAction.ofStatement [word, token] = [] := by
    simp [NameAction.ofStatement, isWord]
  rw [actions]
  exact .goto env target token.position

theorem ne_keyword_of_expressive {tokens : List Token} {keyword : Keyword}
    (h : Grammar.Expressive tokens) : ∀ token ∈ tokens, token.kind ≠ .keyword keyword := by
  intro token mem eq
  have expressive := h token mem
  rw [eq] at expressive
  cases expressive

theorem ofStatement_loop {word name equal upTo : Token} {start limit step : List Token}
    (isWord : word.kind = .keyword .FOR) (isName : name.kind = .identifier)
    (isEqual : equal.kind = .operator .equal) (isStart : Grammar.Expression start)
    (isTo : upTo.kind = .keyword .TO) :
    NameAction.ofStatement (word :: name :: equal :: (start ++ upTo :: (limit ++ step))) =
      .write name.text (namesIn start) :: (namesIn (limit ++ step)).map .use ++ [.enter] := by
  have inside : ∀ token ∈ name :: equal :: start,
      (!decide (token.kind = .keyword .TO)) = true := by
    intro token mem
    simp only [mem_cons] at mem
    rcases mem with rfl | rfl | mem
    · simp [isName]
    · simp [isEqual]
    · simpa using ne_keyword_of_expressive (.expression isStart) token mem
  have shape : name :: equal :: (start ++ upTo :: (limit ++ step)) =
      (name :: equal :: start) ++ upTo :: (limit ++ step) := rfl
  have names : namesIn (equal :: start) = namesIn start := namesIn_other (by simp [isEqual])
  have names' : namesIn (upTo :: (limit ++ step)) = namesIn (limit ++ step) :=
    namesIn_other (by simp [isTo])
  simp only [NameAction.ofStatement, isWord]
  rw [shape, takeWhile_append_of_pos inside, dropWhile_append_of_pos inside]
  simp [isTo, NameAction.writes, NameAction.uses, names, names']

theorem Yields.forStatement_completes (isWord : word.kind = .keyword .FOR)
    (h : Parse.forStatement.Yields s env u s' env') : Env.CompletesBehind word s env s' env' := by
  obtain ⟨name, s₁, read₁, _, isName, h⟩ := yields_expect_bind.mp h
  obtain ⟨equal, s₂, read₂, _, isEqual, h⟩ := yields_expect_bind.mp h
  obtain ⟨value, s₃, env₁, h₃, h⟩ := yields_bind.mp h
  obtain ⟨start, takes₁, isStart, reads₁⟩ := understands_expression h₃
  obtain ⟨counter, env₂, written, h⟩ := yields_lift_bind.mp h
  obtain ⟨assign, env₃, assigned, h⟩ := yields_lift_bind.mp h
  have same₁ : env.Same env₃ := (reads₁.same.trans ((Check.keeps_writtenVariable _ _).same written)).trans
    ((Check.keeps_assignment _ _ _).same assigned)
  obtain ⟨upTo, s₄, read₃, _, isTo, h⟩ := yields_expect_bind.mp h
  obtain ⟨limit, s₅, env₄, h₇, h⟩ := yields_bind.mp h
  obtain ⟨limits, takes₂, isLimit, reads₂⟩ := understands_expression h₇
  have finish : ∀ {step s₇ env₅ steps}, s₅.Takes steps s₇ → Grammar.Optional Grammar.Step steps →
      env₄.Reads steps [step] env₅ → s₇ = s' → (∃ log,
        { env₅ with size := env₅.size + 1, log }.markLine.opened
          (.loop env₅.size env₅.line assign limit step) = env') →
      Env.CompletesBehind word s env s' env' := by
    rintro step s₇ env₅ steps takes₃ isStep reads₃ rfl ⟨log, rfl⟩
    refine ⟨name :: equal :: (start ++ upTo :: (limits ++ steps)), ?_, ?_⟩
    · exact takes_cons read₁ (takes_cons read₂ (takes_append takes₁
        (takes_cons read₃ (takes_append takes₂ takes₃))))
    have reads := reads₂.append reads₃
    have same := same₁.trans reads.same
    have marked := Env.Same.markLine { env₅ with size := env₅.size + 1, log }
    constructor
    · have opened : ({ env₅ with size := env₅.size + 1, log }.markLine.opened
          (.loop env₅.size env₅.line assign limit step)).constructs = .loop :: env.constructs := by
        rw [← same.constructs]
        rfl
      rw [opened]
      exact .loop isWord isName isEqual isStart isTo isLimit isStep
    · exact same.collect
    · exact marked.numbers.trans same.numbers
    · intro strict
      have expresses := reads.expresses (same₁.collect.trans strict)
      have writes := @Check.Yields.assignment_writes _ _ _ _ _ _ _ [] _ name
        (reads₁.expresses strict) written assigned strict
      rw [ofStatement_loop isWord isName isEqual isStart isTo]
      have quiet : env₃.Quiet { env₅ with log } := expresses.quiet.trans rfl
      exact .loop writes quiet expresses.mentions
        (expresses.settled limit (by simp)) (expresses.settled step (by simp))
    · intro strict quoted
      have started := reads₁.builds strict fun token mem => quoted token (by simp [mem])
      have further := reads.builds (same₁.collect.trans strict) fun token mem =>
        quoted token (by simp [mem_append.mp mem])
      obtain ⟨number, type, isReference, noIndex, builds, rfl, rfl⟩ :=
        @Check.Yields.assignment_builds _ _ _ _ _ _ _ [] name started written assigned
          (reads₁.same.collect.trans strict)
      replace builds := builds.assign number type
      have later := further.grows.trans (.recorded env₅ log)
      have built := builds.grow later
      refine .loop built.grows ⟨_, _, counter, value, ⟨built.isExpression counter (by simp), number,
        isReference⟩, noIndex, built.isExpression value (by simp), rfl⟩
        (further.isExpression limit (by simp)) (further.isExpression step (by simp))
  obtain ⟨_, s₆, ⟨rfl, token, read, _, isToken⟩ | ⟨rfl, rfl, _⟩, h⟩ := yields_accept_bind.mp h
  · obtain ⟨step, s₇, env₅, h₉, h⟩ := yields_bind.mp h
    obtain ⟨steps, takes₃, isStep, reads₃⟩ := understands_expression h₉
    obtain ⟨eq, opened⟩ := Yields.openLoop h
    exact finish (takes_cons read takes₃) (.some (.mk isToken isStep))
      (reads₃.skip_cons (by simp [isToken])) eq opened
  · obtain ⟨step, _, env₅, h₉, h⟩ := yields_bind.mp h
    obtain ⟨check, rfl⟩ := yields_lift.mp h₉
    obtain ⟨eq, opened⟩ := Yields.openLoop h
    exact finish takes_nil .none
      (check.literalNode_reads rfl (fun _ => by simp) fun _ _ => by decide) eq opened

theorem Yields.ifStatement_completes (isWord : word.kind = .keyword .IF)
    (h : Parse.ifStatement.Yields s env u s' env') : Env.CompletesBehind word s env s' env' := by
  obtain ⟨lhs, s₁, env₁, h₁, h⟩ := yields_bind.mp h
  obtain ⟨left, takes₁, isLeft, reads₁⟩ := understands_expression h₁
  obtain ⟨token, s₂, read, _, h⟩ := yields_advance_bind.mp h
  split at h
  next comparator isOperator =>
    by_cases compares : comparator.isComparator
    · simp only [compares, Bool.not_true, Bool.false_eq_true, if_false] at h
      obtain ⟨rhs, s₃, env₂, h₃, h⟩ := yields_bind.mp h
      obtain ⟨right, takes₂, isRight, reads₂⟩ := understands_expression h₃
      obtain ⟨condition, env₃, check, h⟩ := yields_lift_bind.mp h
      have reads : env.Reads (left ++ token :: right) [lhs, rhs] env₂ :=
        reads₁.append (reads₂.skip_cons (by simp [isOperator]))
      have same : env.Same env₃ := reads.same.trans ((Check.keeps_binary _ _ _ _).same check)
      have compared (strict : env.collect = false) :
          env.Expresses (left ++ token :: right) [condition] env₃ :=
        @Check.Yields.binary_expresses _ _ _ _ _ _ [] _ _ _ _ check (reads.expresses strict)
          (reads.same.collect.trans strict)
      have isComparison (strict : env.collect = false) := check.binary_eq
        (reads.same.collect.trans strict)
      obtain ⟨_, s₄, accepted, h⟩ := yields_accept_bind.mp h
      have ending : ∃ ending, s₃.Takes ending s₄ ∧ Grammar.Optional (Grammar.Word .THEN) ending ∧
          namesIn ending = [] := by
        obtain ⟨rfl, next, read, _, isThen⟩ | ⟨rfl, rfl, _⟩ := accepted
        · exact ⟨[next], takes_cons read takes_nil, .some (.mk isThen),
            namesIn_other (by simp [isThen])⟩
        · exact ⟨[], takes_nil, .none, rfl⟩
      obtain ⟨ending, takes₃, isEnding, noNames⟩ := ending
      obtain ⟨_, _, check, h⟩ := yields_lift_bind.mp h
      obtain ⟨rfl, rfl⟩ := Check.yields_fresh.mp check
      replace h := yields_modifyThe_bind.mp h
      replace h := yields_getThe_bind.mp h
      obtain ⟨check, rfl⟩ := yields_lift.mp h
      obtain rfl := Check.yields_openBlock.mp check
      refine ⟨left ++ token :: (right ++ ending),
        takes_append takes₁ (takes_cons read (takes_append takes₂ takes₃)), ?_⟩
      have marked := Env.Same.markLine { env₃ with size := env₃.size + 1 }
      constructor
      · have opened : ({ env₃ with size := env₃.size + 1 }.markLine.opened
            (.branch env₃.size env₃.line condition)).constructs = .branch :: env.constructs := by
          rw [← same.constructs]
          rfl
        exact opened ▸ .branch isWord isLeft isOperator compares isRight isEnding
      · exact same.collect
      · exact marked.numbers.trans same.numbers
      · intro strict
        have expresses := compared strict
        have actions : NameAction.ofStatement (word :: (left ++ token :: (right ++ ending))) =
            (namesIn (left ++ token :: right)).map .use ++ [.enter] := by
          have names : namesIn (left ++ token :: (right ++ ending)) =
              namesIn (left ++ token :: right) := by
            rw [← cons_append, ← append_assoc, namesIn_append, noNames, append_nil]
          simp [NameAction.ofStatement, isWord, NameAction.uses, names]
        rw [actions]
        refine .branch ⟨expresses.quiet, ?_, expresses.settled condition (by simp)⟩
        simpa using expresses.mentions
      · intro strict quoted
        have builds := reads.builds strict fun other mem => quoted other (by
          simp only [mem_append, mem_cons] at mem ⊢
          tauto)
        obtain ⟨type, rfl, rfl, _⟩ := isComparison strict
        have built := builds.grow (.numbered env₂)
        exact .branch built.grows ⟨_, _, comparator, type, lhs, rhs, compares,
          built.isExpression lhs (by simp), built.isExpression rhs (by simp), rfl⟩
    · simp only [compares, Bool.not_false, if_true] at h
      obtain ⟨_, _, _, h₃, _⟩ := yields_bind.mp h
      exact absurd h₃ not_yields_failAt
  next => exact absurd h not_yields_failAt

theorem Yields.elseStatement_completes (isWord : word.kind = .keyword .ELSE)
    (h : (Parse.elseStatement word).Yields s env u s' env') :
    Env.CompletesBehind word s env s' env' := by
  replace h := yields_getThe_bind.mp h
  split at h
  next id line condition consequence outer eq =>
    replace h := yields_modifyThe_bind.mp h
    obtain ⟨check, rfl⟩ := yields_lift.mp h
    obtain rfl := Check.yields_openBlock.mp check
    refine ⟨[], takes_nil, ?_, rfl, rfl, fun _ => ?_, fun _ _ => .otherwise eq⟩
    · have before : env.constructs =
          .branch :: outer.map fun opened => opened.opening.construct := by
        rw [Env.constructs, eq]
        rfl
      rw [before]
      exact .otherwise isWord
    · have actions : NameAction.ofStatement [word] = [.leave, .enter] := by
        simp [NameAction.ofStatement, isWord]
      rw [actions]
      exact .otherwise eq
  next => exact absurd h not_yields_failAt

theorem Yields.endStatement_completes (isWord : word.kind = .keyword .END)
    (h : (Parse.endStatement word).Yields s env u s' env') :
    Env.CompletesBehind word s env s' env' := by
  replace h := yields_getThe_bind.mp h
  split at h
  next opening block outer eq =>
    replace h := yields_modifyThe_bind.mp h
    obtain ⟨check, rfl⟩ := yields_lift.mp h
    obtain rfl := Check.yields_append.mp check
    have same := Env.Same.updateCurrent { env with blocks := outer } fun block' =>
      { block' with statements := block'.statements.push (opening.close block.node) }
    refine ⟨[], takes_nil, ?_, same.collect, same.numbers, fun _ => ?_, fun _ _ => .close eq⟩
    · have before : env.constructs = opening.construct ::
          ({ env with blocks := outer } : Env).constructs := by
        rw [Env.constructs, eq]
        rfl
      have later : ({ env with blocks := outer }.appended (opening.close block.node)).constructs =
          ({ env with blocks := outer } : Env).constructs := same.constructs
      rw [before, later]
      exact .close isWord
    · have actions : NameAction.ofStatement [word] = [.leave] := by
        simp [NameAction.ofStatement, isWord]
      rw [actions]
      exact .close eq
  next => exact absurd h not_yields_failAt

/-- A format is a string; if faults are not collected, it cannot be anything else. -/
theorem Yields.format_reads {keyword : Keyword} {n : Node}
    (h : (Parse.format keyword).Yields s env n s' env') :
    ∃ used, s.Takes used s' ∧ Grammar.Format used ∧ env.Reads used [n] env' ∧
      (env.collect = false → ∃ token literal, used = [token] ∧ token.kind = .literal .text ∧
        n.kind = .literal literal ∧ (AllQuoted used → n.IsFormat env'.strings)) := by
  replace h := yields_peekKind?_bind.mp h
  split at h
  next isText =>
    obtain ⟨token, s₁, read, _, h⟩ := yields_advance_bind.mp h
    have isText : token.kind = .literal .text := by
      simpa [TokenStream.peekKind?, TokenStream.peek?, read] using isText
    obtain ⟨check, rfl⟩ := yields_lift.mp h
    have one (quoted : AllQuoted [token]) : IsQuoted token.text :=
      quoted token (mem_singleton_self _) isText
    refine ⟨[token], takes_cons read takes_nil, .text isText,
      check.literal_reads (namesIn_other (by simp [isText])) fun quoted _ => ⟨rfl, one quoted⟩,
      fun _ => ?_⟩
    have check : (Check.literalNode token.text .string).Yields env n env' := by
      simpa [Check.literal, Check.literalType] using check
    have isFormat (quoted : AllQuoted [token]) : n.IsFormat env'.strings :=
      (check.literalNode_builds (fun _ => one quoted) (by simp)).2 rfl
    obtain ⟨_, id, line, label, rfl⟩ := check.literalNode_eq
    exact ⟨token, _, rfl, isText, rfl, isFormat⟩
  next notText =>
    replace h := yields_get_bind.mp h
    obtain ⟨_, _, check, h⟩ := yields_lift_bind.mp h
    obtain rfl := check.diagnose
    obtain ⟨_, env₁, check, h⟩ := yields_lift_bind.mp h
    obtain ⟨used, takes, isExpression, reads⟩ := understands_expression h
    refine ⟨used, takes, .other isExpression fun token first isText => notText ?_, ?_, ?_⟩
    · have head : s.rest.head? = some token := by
        rw [takes, head?_append, first]
        rfl
      simp [TokenStream.peekKind?, TokenStream.peek?, head, isText]
    · exact ⟨(passes_report check).same.trans reads.same,
        fun strict => absurd check (Check.not_yields_report strict),
        fun strict => absurd check (Check.not_yields_report strict)⟩
    · exact fun strict => absurd check (Check.not_yields_report strict)

theorem Yields.arguments_reads {nodes : List Node}
    (h : Yields (many do
      if ← accept (.separator .comma) then return some (← expression) else return none)
      s env nodes s' env') :
    ∃ used, s.Takes used s' ∧ Grammar.Many (Grammar.Listed Grammar.Expression) used ∧
      env.Reads used nodes env' := by
  refine Yields.many_phrases .nil (fun h => ?_) h
  obtain ⟨_, s₁, ⟨rfl, comma, read, _, isComma⟩ | ⟨rfl, rfl, _⟩, h⟩ := yields_accept_bind.mp h
  · obtain ⟨n, s₂, env₂, h₂, h⟩ := yields_bind.mp h
    obtain ⟨used, takes, isExpression, reads⟩ := understands_expression h₂
    obtain ⟨rfl, rfl, rfl⟩ := yields_pure.mp h
    exact .inr ⟨comma :: used, n, rfl, takes_cons read takes, .mk isComma isExpression,
      fun _ _ _ more => (reads.skip_cons (by simp [isComma])).append more⟩
  · obtain ⟨rfl, rfl, rfl⟩ := yields_pure.mp h
    exact .inl ⟨rfl, rfl, rfl⟩

theorem Yields.printStatement_completes (isWord : word.kind = .keyword .PRINT)
    (h : Parse.printStatement.Yields s env u s' env') : Env.CompletesBehind word s env s' env' := by
  obtain ⟨format, s₁, env₁, h₁, h⟩ := yields_bind.mp h
  obtain ⟨formats, takes₁, isFormat, reads₁, isText⟩ := h₁.format_reads
  obtain ⟨_, _, check, h⟩ := yields_lift_bind.mp h
  obtain ⟨rfl, rfl⟩ := Check.yields_fresh.mp check
  obtain ⟨nodes, s₂, env₂, h₃, h⟩ := yields_bind.mp h
  obtain ⟨arguments, takes₂, isMany, reads₂⟩ := h₃.arguments_reads
  replace h := yields_getThe_bind.mp h
  obtain ⟨check, rfl⟩ := yields_lift.mp h
  obtain rfl := Check.yields_attach.mp check
  have numbered : env₁.Reads [] [] { env₁ with size := env₁.size + 1 } :=
    ⟨⟨rfl, rfl, rfl⟩, fun _ => (Env.Expresses.nil env₁).quieten (.numbered env₁),
      fun _ _ => (Env.Builds.nil env₁).grow (.numbered env₁)⟩
  have reads : env.Reads (formats ++ arguments) (format :: nodes) env₂ := by
    simpa using (reads₁.append numbered).append reads₂
  refine ⟨formats ++ arguments, takes_append takes₁ takes₂,
    .of_same (reads.same.trans (.attached _ _)) (fun _ => .print isWord isFormat isMany) ?_ ?_⟩
  · intro strict
    have expresses := reads.expresses strict
    have actions : NameAction.ofStatement (word :: (formats ++ arguments)) =
        (namesIn (formats ++ arguments)).map .use := by
      simp [NameAction.ofStatement, isWord, NameAction.uses]
    rw [actions]
    refine .say ⟨expresses.quiet, ?_, ?_⟩
    · rw [Node.mentions_other rfl]
      exact expresses.mentions
    · exact Env.settled_over expresses.settled (by simp) (by simp) (by simp) (by simp)
  · intro strict quoted
    obtain ⟨quoted₁, quoted₂⟩ := forall_mem_append.mp (forall_mem_cons.mp quoted).2
    obtain ⟨_, _, _, _, _, isFormat⟩ := isText strict
    have builds₁ := reads₁.builds strict quoted₁
    have builds₂ := reads₂.builds (reads₁.same.collect.trans strict) quoted₂
    have grows := (Env.Grows.numbered env₁).trans builds₂.grows
    exact .one (builds₁.grows.trans grows)
      (.print ((isFormat quoted₁).mono grows.tables) builds₂.isExpression) (by simp) rfl

theorem Yields.printlnStatement_completes (isWord : word.kind = .keyword .PRINTLN)
    (h : Parse.printlnStatement.Yields s env u s' env') : Env.CompletesBehind word s env s' env' := by
  have actions (used : List Token) : NameAction.ofStatement (word :: used) =
      (namesIn used).map .use := by
    simp [NameAction.ofStatement, isWord, NameAction.uses]
  obtain ⟨_, _, check, h⟩ := yields_lift_bind.mp h
  obtain ⟨rfl, rfl⟩ := Check.yields_fresh.mp check
  have numbered : env.Same { env with size := env.size + 1 } := ⟨rfl, rfl, rfl⟩
  have quiet := Env.Quiet.numbered env
  replace h := yields_getThe_bind.mp h
  replace h := yields_get_bind.mp h
  split at h
  next =>
    obtain ⟨format, env₁, check, h⟩ := yields_lift_bind.mp h
    have same := (Check.keeps_literalNode _ _).same check
    obtain ⟨builds, isFormat⟩ :=
      check.literalNode_builds (fun _ => ⟨['\\', 'n'], by decide, by decide⟩) (by simp)
    obtain ⟨quiet', id, line, label, rfl⟩ := check.literalNode_eq
    obtain ⟨check, rfl⟩ := yields_lift.mp h
    obtain rfl := Check.yields_attach.mp check
    have grows := (Env.Grows.numbered env).trans builds.grows
    refine ⟨[], takes_nil, .of_same ((numbered.trans same).trans (.attached _ _))
      (fun _ => .println isWord .none) (fun strict => ?_) fun _ _ => ?_⟩
    · rw [actions]
      refine .say ⟨quiet.trans quiet', ?_, ?_⟩
      · rw [Node.mentions_other rfl]
        simp [Env.resolved]
      · refine Node.settled_mk ?_ ⟨by simp, by simp, by simp⟩ rfl rfl
        simpa using Check.settled_literal
    · exact .one grows (@Node.IsSimple.println _ _ _ _ _ _ none (isFormat rfl) (by simp)) (by simp)
        grows.line.symm
  next =>
    obtain ⟨name, s₁, read, _, isName, h⟩ := yields_expect_bind.mp h
    obtain ⟨argument, s₂, env₁, h₅, h⟩ := yields_bind.mp h
    obtain ⟨used, takes, isVariable, reads, isReference⟩ :=
      h₅.variableRead_reads understands_expression isName
    replace h := yields_getThe_bind.mp h
    obtain ⟨format, env₂, check, h⟩ := yields_lift_bind.mp h
    have same := (Check.keeps_literalNode _ _).same check
    obtain ⟨builds, isFormat⟩ := check.literalNode_builds (fun _ => by
      split
      · exact ⟨['%', 's', '\\', 'n'], by decide, by decide⟩
      · exact ⟨['%', 'd', '\\', 'n'], by decide, by decide⟩) (by simp)
    obtain ⟨quiet', id, line, label, rfl⟩ := check.literalNode_eq
    obtain ⟨check, rfl⟩ := yields_lift.mp h
    obtain rfl := Check.yields_attach.mp check
    refine ⟨name :: used, takes_cons read takes,
      .of_same (((numbered.trans reads.same).trans same).trans (.attached _ _))
        (fun _ => .println isWord (.some isVariable)) (fun strict => ?_) fun strict quoted => ?_⟩
    · have expresses := reads.expresses strict
      rw [actions]
      refine .say ⟨(quiet.trans expresses.quiet).trans quiet', ?_, ?_⟩
      · rw [Node.mentions_other rfl, ← quiet.resolved]
        simpa using expresses.mentions
      · have types : env₁.types = env.types := (quiet.trans expresses.quiet).types
        refine Node.settled_mk ?_ ⟨by simp, by simp, ?_⟩ rfl rfl
        · intro node mem
          simp only [mem_cons, not_mem_nil, or_false] at mem
          rcases mem with rfl | rfl
          · exact Check.settled_literal
          · exact expresses.settled _ (by simp)
        · intro format' argument' _ eq
          cases eq
          refine ⟨_, rfl, ?_⟩
          simp only [env₁.type?_eq, types]
    · have built := reads.builds strict (forall_mem_cons.mp quoted).2
      have later := built.grows.trans builds.grows
      have grows := (Env.Grows.numbered env).trans later
      have isArgument := (built.isExpression argument (by simp)).grow builds.grows
      exact .one grows (@Node.IsSimple.println _ _ _ _ _ _ (some argument) (isFormat rfl)
        (by rintro _ ⟨⟩; exact ⟨isArgument, isReference strict⟩)) (by simp) grows.line.symm

structure Env.BuildsTargets (env : Env) (nodes : List Node) (env' : Env) : Prop where
  builds : env.Builds nodes env'
  isReference : ∀ node ∈ nodes, ∃ number, node.kind = .reference number

theorem Yields.readTarget_writes {found : Option Node} (h : Parse.readTarget.Yields s env found s' env') :
    found = none ∧ s = s' ∧ env = env' ∨ ∃ comma name indices node, found = some node ∧
      s.Takes (comma :: name :: indices) s' ∧ comma.kind = .separator .comma ∧
      Grammar.Variable (name :: indices) ∧ env.Same env' ∧
      (env.collect = false → env.Writes name.text (namesIn indices) true node env') ∧
      (env.collect = false → AllQuoted indices → env.BuildsTargets [node] env') := by
  obtain ⟨_, s₁, ⟨rfl, comma, read₁, _, isComma⟩ | ⟨rfl, rfl, _⟩, h⟩ := yields_accept_bind.mp h
  · obtain ⟨name, s₂, _, h₂, h⟩ := yields_bind.mp h
    obtain ⟨read₂, _, isName, rfl⟩ := yields_expect.mp h₂
    obtain ⟨nodes, s₃, env₁, h₃, h⟩ := yields_bind.mp h
    obtain ⟨indices, takes, isMany, reads⟩ := h₃.indices_reads understands_expression
    obtain ⟨target, env₂, written, h⟩ := yields_lift_bind.mp h
    have same := reads.same.trans ((Check.keeps_writtenVariable _ _).same written)
    have finish : ∀ {env₃ : Env}, env₂.Same env₃ →
        (∀ number, target.kind = .reference number → env₂.learning number (some .int) = env₃) →
        (pure (some target) : Parse (Option Node)).Yields s₃ env₃ found s' env' →
        found = none ∧ s = s' ∧ env = env' ∨ ∃ comma name indices node, found = some node ∧
          s.Takes (comma :: name :: indices) s' ∧ comma.kind = .separator .comma ∧
          Grammar.Variable (name :: indices) ∧ env.Same env' ∧
          (env.collect = false → env.Writes name.text (namesIn indices) true node env') ∧
          (env.collect = false → AllQuoted indices → env.BuildsTargets [node] env') := by
      intro env₃ same' learned h
      obtain ⟨rfl, rfl, rfl⟩ := yields_pure.mp h
      refine .inr ⟨comma, name, indices, target, rfl, takes_cons read₁ (takes_cons read₂ takes), isComma,
        .mk isName isMany, same.trans same', fun strict => ?_, fun strict quoted => ?_⟩
      · have expresses := reads.expresses strict
        have quiet := expresses.quiet
        obtain ⟨number, id, names, types, ⟨v, known⟩, rfl⟩ :=
          written.writtenVariable_eq (quiet.collect.trans strict)
        obtain rfl := learned number rfl
        constructor
        · refine ⟨number, (names.after quiet).alike (.learning ..), ?_⟩
          rw [expresses.mentions, quiet.line, Node.mentions_reference, map_cons]
        · refine .parent (@Node.Leads.of_settled env.types _ expresses.settled)
            (.other (by simp) (by simp) (by simp)) ?_
          rw [Env.types_learning known, types, quiet.types]
          rfl
      · have strict₁ : env₁.collect = false := reads.same.collect.trans strict
        have builds := @Check.Yields.writtenVariable_builds _ _ _ _ _ [] name written strict₁
          (by simpa using reads.builds strict quoted)
        obtain ⟨number, id, _, _, _, rfl⟩ := written.writtenVariable_eq strict₁
        obtain rfl := learned number rfl
        exact ⟨builds.grow (.learning ..), by simp⟩
    split at h
    next number isReference =>
      replace h := yields_getThe_bind.mp h
      have typed : env₂.type? target = env₂.types number := by
        rw [env₂.type?_eq, isReference]
        rfl
      rw [typed] at h
      split at h
      next unknown =>
        obtain ⟨_, _, check, h⟩ := yields_lift_bind.mp h
        have same' := (Check.keeps_setType _ _).same check
        obtain rfl := Check.yields_modify.mp check
        refine finish same' (fun other eq => ?_) h
        cases isReference.symm.trans eq
        exact Env.learning_of_unknown _ unknown
      next known =>
        obtain ⟨type, known⟩ := Option.ne_none_iff_exists'.mp known
        refine finish (.refl env₂) (fun other eq => ?_) h
        cases isReference.symm.trans eq
        exact Env.learning_of_known _ known
    next other => exact finish (.refl env₂) (fun number eq => absurd eq (other number)) h
  · obtain ⟨rfl, rfl, rfl⟩ := yields_pure.mp h
    exact .inl ⟨rfl, rfl, rfl⟩

theorem targets_listed {comma name : Token} {indices rest : List Token}
    (isComma : comma.kind = .separator .comma) (isVariable : Grammar.Variable (name :: indices))
    (more : ∀ token ∈ rest.head?, token.kind = .separator .comma) :
    NameAction.targets (comma :: name :: indices ++ rest) =
      .write name.text (namesIn indices) :: NameAction.targets rest := by
  have inside : ∀ token ∈ name :: indices, token.kind ≠ .separator .comma := by
    intro token mem eq
    have expressive := Grammar.Expressive.target isVariable token mem
    rw [eq] at expressive
    cases expressive
  have skip (tokens : List Token) (none : ∀ token ∈ tokens, token.kind ≠ .separator .comma) :
      NameAction.targets (tokens ++ rest) = NameAction.targets rest := by
    induction tokens with
    | nil => rfl
    | cons token tokens ih =>
      obtain ⟨first, others⟩ := forall_mem_cons.mp none
      rw [cons_append, NameAction.targets, if_neg first, ih others]
  have stop : rest.takeWhile (fun other => decide (other.kind ≠ .separator .comma)) = [] := by
    cases rest with
    | nil => rfl
    | cons token rest => simp [more token rfl]
  have cut : (name :: indices ++ rest).takeWhile
      (fun other => decide (other.kind ≠ .separator .comma)) = name :: indices := by
    rw [takeWhile_append_of_pos (by simpa using inside), stop, append_nil]
  rw [cons_append, NameAction.targets, if_pos isComma, cut, skip _ inside]
  rfl

theorem Yields.readTargets_writes {nodes : List Node}
    (h : (many Parse.readTarget).Yields s env nodes s' env') :
    ∃ used, s.Takes used s' ∧ Grammar.Many (Grammar.Listed Grammar.Variable) used ∧ env.Same env' ∧
      (∀ token ∈ used.head?, token.kind = .separator .comma) ∧
      (env.collect = false → env.Targets (NameAction.targets used) nodes env') ∧
      (env.collect = false → AllQuoted used → env.BuildsTargets nodes env') := by
  refine Yields.many_phrases (P := fun env used nodes env' => env.Same env' ∧
      (∀ token ∈ used.head?, token.kind = .separator .comma) ∧
      (env.collect = false → env.Targets (NameAction.targets used) nodes env') ∧
      (env.collect = false → AllQuoted used → env.BuildsTargets nodes env')) ?_ (fun h => ?_) h
  · exact fun env => ⟨.refl env, by simp, fun _ => .nil env, fun _ _ => ⟨.nil env, by simp⟩⟩
  obtain none | ⟨comma, name, indices, node, found, takes, isComma, isVariable, same, writes, builds⟩ :=
    h.readTarget_writes
  · exact .inl none
  · refine .inr ⟨comma :: name :: indices, node, found, takes, .mk isComma isVariable, ?_⟩
    rintro used nodes env'' ⟨same', more, targets, later⟩
    refine ⟨same.trans same', by simpa using isComma, fun strict => ?_, fun strict quoted => ?_⟩
    · rw [targets_listed isComma isVariable more]
      exact .cons (writes strict) (targets (same.collect.trans strict))
    · obtain ⟨quoted₁, quoted₂⟩ := forall_mem_append.mp quoted
      have first := builds strict fun token mem => quoted₁ token (by simp [mem])
      have rest := later (same.collect.trans strict) quoted₂
      exact ⟨first.builds.append rest.builds,
        forall_mem_append.mpr ⟨first.isReference, rest.isReference⟩⟩

theorem Env.Targets.leads {actions : List NameAction} {nodes : List Node}
    (h : env.Targets actions nodes env') : Node.Leads env.types true nodes env'.types := by
  induction h with
  | nil => exact .nil
  | cons writes _ ih => exact writes.leads.append ih

theorem Yields.readStatement_completes (isWord : word.kind = .keyword .READ)
    (h : Parse.readStatement.Yields s env u s' env') : Env.CompletesBehind word s env s' env' := by
  obtain ⟨format, s₁, env₁, h₁, h⟩ := yields_bind.mp h
  obtain ⟨formats, takes₁, isFormat, reads, isText⟩ := h₁.format_reads
  obtain ⟨_, _, check, h⟩ := yields_lift_bind.mp h
  obtain ⟨rfl, rfl⟩ := Check.yields_fresh.mp check
  obtain ⟨nodes, s₂, env₂, h₃, h⟩ := yields_bind.mp h
  obtain ⟨used, takes₂, isMany, same, _, targets, built⟩ := h₃.readTargets_writes
  replace h := yields_getThe_bind.mp h
  obtain ⟨check, rfl⟩ := yields_lift.mp h
  obtain rfl := Check.yields_attach.mp check
  have numbered : env₁.Same { env₁ with size := env₁.size + 1 } := ⟨rfl, rfl, rfl⟩
  have all := reads.same.trans numbered
  refine ⟨formats ++ used, takes_append takes₁ takes₂,
    .of_same ((all.trans same).trans (.attached _ _)) (fun _ => .read isWord isFormat isMany)
      (fun strict => ?_) fun strict quoted => ?_⟩
  · have expresses := reads.expresses strict
    have targets := targets (all.collect.trans strict)
    obtain ⟨token, literal, rfl, isText, isLiteral, _⟩ := isText strict
    have actions : NameAction.ofStatement (word :: ([token] ++ used)) = NameAction.targets used := by
      simp [NameAction.ofStatement, isWord, NameAction.targets, isText]
    have quiet : env.Quiet { env₁ with size := env₁.size + 1 } :=
      expresses.quiet.trans (.numbered env₁)
    have leads : Node.Leads env.types true [format] env.types := by
      obtain ⟨learned, stages⟩ := expresses.settled format (by simp)
      refine ⟨?_, by simpa using stages⟩
      simpa [isLiteral, NodeKind.after] using learned
    rw [actions]
    refine .read quiet targets ?_ (.parent (leads.append (quiet.types ▸ targets.leads)) ?_ rfl)
    · have noNames : Node.mentions format = [] := by
        have mentions := expresses.mentions
        rw [namesIn_other (by simp [isText])] at mentions
        simpa [Env.resolved] using mentions.symm
      rw [Node.mentions_other rfl, Node.mentionsAll_cons, noNames, nil_append]
    · exact .other (by simp) (by simp) (by simp)
  · obtain ⟨quoted₁, quoted₂⟩ := forall_mem_append.mp (forall_mem_cons.mp quoted).2
    obtain ⟨_, _, _, _, _, isFormat⟩ := isText strict
    have builds₁ := reads.builds strict quoted₁
    obtain ⟨builds₂, isReference⟩ := built (all.collect.trans strict) quoted₂
    have grows := (Env.Grows.numbered env₁).trans builds₂.grows
    exact .one (builds₁.grows.trans grows) (.read ((isFormat quoted₁).mono grows.tables)
      fun node mem => ⟨builds₂.isExpression node mem, isReference node mem⟩) (by simp) rfl

theorem Yields.statementBody_completes {token : Token}
    (h : (Parse.statementBody token).Yields s env u s' env') :
    Env.CompletesBehind token s env s' env' := by
  unfold Parse.statementBody at h
  split at h
  next isLet =>
    obtain ⟨name, s₁, read, _, isName, h⟩ := yields_expect_bind.mp h
    obtain ⟨used, takes, completes⟩ := h.letStatement_completes (.some (.mk isLet)) isName
    exact ⟨name :: used, takes_cons read takes, completes⟩
  next isName => exact h.letStatement_completes .none isName
  next isWord => exact h.declaration_completes isWord
  next isWord => exact h.gotoStatement_completes isWord
  next isWord => exact h.forStatement_completes isWord
  next isWord => exact h.ifStatement_completes isWord
  next isWord => exact h.elseStatement_completes isWord
  next isWord => exact h.endStatement_completes isWord
  next isWord => exact h.printStatement_completes isWord
  next isWord => exact h.printlnStatement_completes isWord
  next isWord => exact h.readStatement_completes isWord
  next isWord =>
    obtain ⟨_, rfl, rfl⟩ := yields_pure.mp h
    refine ⟨[], takes_nil, .of_same (.refl env) (fun _ => .remark isWord) (fun _ => ?_)
      fun _ _ => .done (.refl env)⟩
    have actions : NameAction.ofStatement [token] = [] := by simp [NameAction.ofStatement, isWord]
    rw [actions]
    exact .nothing env
  next => exact absurd h not_yields_failAt

namespace Env

/-- What a line does with names and types. -/
inductive Acts : Env → List Token → Env → Prop
  | mk {env env₁ env' : Env} {label : Token} {number : Nat} {body : List Token} :
      Text.natural? label.text.toList = some number → (∀ line ∈ env.lines, line.1 ≠ number) →
      (env.labelled number).Does (NameAction.ofStatement body) env₁ → env₁.Quiet env' →
      Acts env (label :: body) env'

inductive Runs : Env → List (List Token) → Env → Prop
  | nil (env : Env) : Runs env [] env
  | cons {env env₁ env' : Env} {line : List Token} {lines : List (List Token)} :
      env.Line env₁ → env.Acts line env₁ → Runs env₁ lines env' → Runs env (line :: lines) env'

theorem Runs.lines {lines : List (List Token)} (h : env.Runs lines env') : env.Lines env' := by
  induction h with
  | nil env => exact .nil env
  | cons line _ _ ih => exact .cons line ih

end Env

/-- A line is its number, a statement and a newline. -/
theorem Yields.statement_acts (h : Parse.statement.Yields s env u s' env') :
    ∃ label body newline number, s.rest = label :: (body ++ newline :: s'.rest) ∧
      Grammar.IsNumber label number ∧ number ∉ env.numbers ∧
      Grammar.Statement env.constructs body env'.constructs ∧
      newline.kind = .separator .newline ∧ env'.numbers = number :: env.numbers ∧
      env'.collect = env.collect ∧ (env.collect = false → env.Acts (label :: body) env') ∧
      (env.collect = false → AllQuoted body → env.Line env') := by
  obtain ⟨_, s₁, _, h₁, h⟩ := yields_bind.mp h
  obtain ⟨label, number, read₁, isInteger, value, bound, fresh, rfl⟩ := h₁.lineLabel
  obtain ⟨token, s₂, read₂, _, h⟩ := yields_advance_bind.mp h
  obtain ⟨_, s₃, env₃, h₃, h⟩ := yields_bind.mp h
  obtain ⟨used, takes, completes⟩ := h₃.statementBody_completes
  replace h := yields_getThe_bind.mp h
  obtain ⟨_, env₄, check, h⟩ := yields_lift_bind.mp h
  obtain rfl := Check.yields_modify.mp check
  obtain ⟨_, s₄, ⟨rfl, newline, read₃, _, isNewline⟩ | ⟨rfl, rfl, _⟩, h⟩ := yields_accept_bind.mp h
  · obtain ⟨_, rfl, rfl⟩ := yields_pure.mp h
    refine ⟨label, token :: used, newline, number, ?_, ⟨isInteger, value, bound⟩, ?_,
      completes.statement, isNewline, completes.numbers, completes.collect, fun strict => ?_,
      fun strict quoted => ⟨number, env₃, fresh, completes.body strict quoted, .recorded env₃ _⟩⟩
    · rw [read₁, read₂, takes, read₃]
      rfl
    · intro mem
      obtain ⟨line, mem, eq⟩ := mem_map.mp mem
      exact fresh line mem eq
    · exact .mk value fresh (completes.does strict) (.recorded _ _)
  · obtain ⟨_, _, _, _, h⟩ := yields_bind.mp h
    exact absurd h not_yields_failHere

theorem Yields.statements_keep {bound : Nat}
    (h : (Parse.statements bound).Yields s env u s' env') (holds : Env → Prop)
    (step : ∀ {s env u s' env'}, Parse.statement.Yields s env u s' env' → holds env → holds env')
    (start : holds env) : holds env' := by
  induction bound generalizing s env with
  | zero =>
    obtain ⟨_, _, rfl⟩ := yields_pure.mp h
    exact start
  | succ bound ih =>
    replace h := yields_get_bind.mp h
    split at h
    next =>
      obtain ⟨_, _, rfl⟩ := yields_pure.mp h
      exact start
    next =>
      obtain ⟨_, _, _, first, rest⟩ := yields_bind.mp h
      exact ih rest (step first start)

/-- Lines are read to the end, where nothing is open. -/
theorem Yields.statements_runs {bound : Nat} (h : (Parse.statements bound).Yields s env u s' env')
    (enough : s.rest.length ≤ bound) (closed : env'.constructs = []) :
    Grammar.Lines env.numbers env.constructs s.rest ∧ env'.collect = env.collect ∧
      (env.collect = false → AllQuoted s.rest → ∃ lines,
        Text.pieces Token.isNewline s.rest = lines ++ [[]] ∧ env.Runs lines env') := by
  have done {s : TokenStream} {env : Env} (none : s.rest = []) (eq : env = env') :
      Grammar.Lines env.numbers env.constructs s.rest ∧ env'.collect = env.collect ∧
        (env.collect = false → AllQuoted s.rest → ∃ lines,
          Text.pieces Token.isNewline s.rest = lines ++ [[]] ∧ env.Runs lines env') := by
    subst eq
    rw [none, closed]
    exact ⟨.nil, rfl, fun _ _ => ⟨[], rfl, .nil env⟩⟩
  induction bound generalizing s env with
  | zero =>
    obtain ⟨_, rfl, rfl⟩ := yields_pure.mp h
    exact done (eq_nil_of_length_eq_zero (Nat.le_zero.mp enough)) rfl
  | succ bound ih =>
    replace h := yields_get_bind.mp h
    split at h
    next atEnd =>
      obtain ⟨_, rfl, rfl⟩ := yields_pure.mp h
      exact done (List.isEmpty_iff.mp atEnd) rfl
    next =>
      obtain ⟨_, s₁, env₁, h₂, h⟩ := yields_bind.mp h
      obtain ⟨label, body, newline, number, read, isNumber, fresh, isStatement, isNewline, numbers,
        collect, acts, line⟩ := h₂.statement_acts
      have shorter : s₁.rest.length ≤ bound := by
        rw [read] at enough
        simp only [length_cons, length_append] at enough
        omega
      obtain ⟨lines, collect', runs⟩ := ih h shorter
      rw [numbers] at lines
      refine ⟨read ▸ .cons isNumber fresh isStatement isNewline lines, collect'.trans collect,
        fun strict quoted => ?_⟩
      have quoted (token : Token) (mem : token ∈ body ∨ token ∈ s₁.rest) :=
        quoted token (by rw [read]; simp only [mem_cons, mem_append]; tauto)
      obtain ⟨rest, pieces, runs⟩ :=
        runs (collect.trans strict) fun token mem => quoted token (.inr mem)
      refine ⟨(label :: body) :: rest, ?_,
        .cons (line strict fun token mem => quoted token (.inl mem)) (acts strict) runs⟩
      have oneLine : Grammar.OneLine (label :: body) :=
        .cons (by simp [isNumber.1]) (.statement isStatement)
      rw [read, ← cons_append,
        Text.pieces_append_cons oneLine (by simp [Token.isNewline, isNewline]), pieces]
      rfl

/-- The statements are read, no block is left open, and the jumps are checked. -/
theorem Yields.program (h : Parse.program.Yields s env u s' env') :
    ∃ s₁ env₁, (Parse.statements s.rest.length).Yields s env () s₁ env₁ ∧ env₁.blocks = [] ∧
      (env₁.jumps.toList.forM Parse.checkJump).Yields s₁ env₁ u s' env' := by
  replace h := yields_get_bind.mp h
  obtain ⟨_, s₁, env₁, h₂, h⟩ := yields_bind.mp h
  obtain ⟨_, _, _, h₃, h⟩ := yields_bind.mp h
  replace h₃ := yields_getThe_bind.mp h₃
  split at h₃
  next last =>
    obtain ⟨_, rfl, rfl⟩ := yields_pure.mp h₃
    exact ⟨s₁, env₁, h₂, getLast?_eq_none_iff.mp last, yields_getThe_bind.mp h⟩
  next => exact absurd h₃ not_yields_throw

theorem Yields.program_runs (h : Parse.program.Yields s env u s' env') :
    Grammar.Lines env.numbers env.constructs s.rest ∧
      (env.collect = false → AllQuoted s.rest → ∃ lines env₁ log,
        Text.pieces Token.isNewline s.rest = lines ++ [[]] ∧ env.Runs lines env₁ ∧
          env₁.blocks = [] ∧ (∀ jump ∈ env₁.jumps.toList, jump.Lands env₁.lines) ∧
          env' = { env₁ with log }) := by
  obtain ⟨s₁, env₁, read, closed, checked⟩ := h.program
  obtain ⟨lines, collect, runs⟩ :=
    read.statements_runs (Nat.le_refl _) (by rw [Env.constructs, closed]; rfl)
  refine ⟨lines, fun strict quoted => ?_⟩
  obtain ⟨rest, pieces, runs⟩ := runs strict quoted
  obtain ⟨lands, log, rfl⟩ := checked.checkJumps (collect.trans strict)
  exact ⟨rest, env₁, log, pieces, runs, closed, lands, rfl⟩

end Parse

end LineBasic
