import LineBasic.Proofs.Parse.Along

/-!
The two ways of treating semantic faults take the same course up to the first fault.
-/

namespace LineBasic

open List

open Parse (Env)

variable {α β : Type}

/-- Faults are collected, and those that have been are semantic ones. -/
structure Parse.Env.Collects (env : Env) : Prop where
  collect : env.collect = true
  noted : ∀ d ∈ env.errors.toList, d.stage = .semantic

/-- States in which no fault has been found. The first one collects faults, the second one stops. -/
structure Parse.Env.Paired (env env' : Env) : Prop extends env.Like id env' where
  collect : env.collect = true
  strict : env'.collect = false
  none : env.errors = #[]
  none' : env'.errors = #[]
  jumps : env'.jumps = env.jumps

theorem Parse.Env.Paired.collects {env env' : Env} (h : env.Paired env') : env.Collects :=
  ⟨h.collect, by simp [h.none]⟩

theorem Parse.Env.Paired.blocks_eq {env env' : Env} (h : env.Paired env') : env'.blocks = env.blocks := by
  rw [h.blocks]
  exact map_id'' (OpenBlock.renumber_self fun _ => rfl) _

theorem Parse.Env.Paired.lines_eq {env env' : Env} (h : env.Paired env') : env'.lines = env.lines := by
  rw [h.lines, Prod.map_id, map_id]

theorem Parse.Env.Paired.toProgram {env env' : Env} (h : env.Paired env') :
    env'.toProgram = env.toProgram := by
  have program := h.program
  rw [Block.renumber_self (ρ := id) fun _ => rfl] at program
  rw [Env.toProgram, Env.toProgram, program, h.size, h.symbols, h.strings]

/-- How a check ends that collects faults: it keeps those it had, and only a fault of the grammar
ends it. -/
inductive Check.Gathers (R : α → α → Prop) (env : Env) : Except Diagnostic α × Env → Prop
  | done {a b : α} {env' : Env} : R a b → env'.Collects → env.errors.toList <+: env'.errors.toList →
      Gathers R env (.ok a, env')
  | failed {d : Diagnostic} {env' : Env} : d.stage = .grammar → env'.Collects →
      env.errors.toList <+: env'.errors.toList → Gathers R env (.error d, env')

/-- How a check ends that collects faults, and how one that stops at the first: alike, or the second
one has stopped at the fault that the first one noted first. -/
inductive Check.Agree (R : α → α → Prop) :
    Except Diagnostic α × Env → Except Diagnostic α × Env → Prop
  | done {a b : α} {env env' : Env} : R a b → env.Paired env' → Agree R (.ok a, env) (.ok b, env')
  | failed {d : Diagnostic} {env env' : Env} : env.Paired env' → Agree R (.error d, env) (.error d, env')
  | parted {result : Except Diagnostic α} {d : Diagnostic} {others : List Diagnostic} {env stop : Env} :
      env.errors.toList = d :: others → stop.errors = #[] → Agree R (result, env) (.error d, stop)

/-- Checks for which collecting faults makes no difference up to the first fault. -/
structure Check.Modal ⦃α : Type⦄ (R : α → α → Prop) (check check' : Check α) : Prop where
  gathers : ∀ env : Env, env.Collects → Gathers R env (check.exec env)
  agrees : ∀ env env' : Env, env.Paired env' → Agree R (check.exec env) (check'.exec env')

namespace Check

theorem Modal.chain {R : α → α → Prop} {R' : β → β → Prop} {check check' : Check α}
    {next next' : α → Check β} (first : Modal R check check')
    (then_ : ∀ a b, R a b → Modal R' (next a) (next' b)) :
    Modal R' (check >>= next) (check' >>= next') where
  gathers env collects := by
    rw [exec_bind]
    have h := first.gathers env collects
    generalize check.exec env = result at h
    cases h with
    | failed grammar collects kept => exact .failed grammar collects kept
    | @done a b env₁ related collects kept =>
      have h := (then_ a b related).gathers env₁ collects
      dsimp only
      generalize (next a).exec env₁ = result at h
      cases h with
      | done related collects kept' => exact .done related collects (kept.trans kept')
      | failed grammar collects kept' => exact .failed grammar collects (kept.trans kept')
  agrees env env' paired := by
    rw [exec_bind, exec_bind]
    have h := first.agrees env env' paired
    have gathers := first.gathers env paired.collects
    generalize check.exec env = result, check'.exec env' = result' at h gathers
    cases h with
    | done related paired => exact (then_ _ _ related).agrees _ _ paired
    | failed paired => exact .failed paired
    | @parted result d others env₁ stop noted none =>
      cases gathers with
      | failed => exact .parted noted none
      | @done a b _ related collects =>
        have h := (then_ a b related).gathers env₁ collects
        dsimp only
        generalize (next a).exec env₁ = result at h
        cases h with
        | done _ _ kept | failed _ _ kept =>
          obtain ⟨more, eq⟩ := kept
          exact .parted (by rw [← eq, noted, cons_append]) none

theorem Modal.modifyGet {f g : Env → α × Env}
    (paired : ∀ env env' : Env, env.Paired env' → (f env).1 = (g env').1 ∧ (f env).2.Paired (g env').2)
    (collect : ∀ env, (f env).2.collect = env.collect) (errors : ∀ env, (f env).2.errors = env.errors) :
    Modal Eq (modifyGet f) (modifyGet g) where
  gathers env h := by
    refine .done (b := (f env).1) rfl ⟨(collect env).trans h.collect, ?_⟩ ?_
    · rw [errors]
      exact h.noted
    · simp [errors]
  agrees env env' h := .done (paired env env' h).1 (paired env env' h).2

theorem Modal.modify {f g : Env → Env} (paired : ∀ env env' : Env, env.Paired env' → (f env).Paired (g env'))
    (collect : ∀ env, (f env).collect = env.collect) (errors : ∀ env, (f env).errors = env.errors) :
    Modal Eq (modify f) (modify g) :=
  .modifyGet (fun env env' h => ⟨rfl, paired env env' h⟩) collect errors

/-- Where the two ways part: one stops, the other notes the fault. -/
theorem modal_report {d : Diagnostic} (isSemantic : d.stage = .semantic) :
    Modal Eq (report d) (report d) where
  gathers env h := by
    rw [exec_report, if_pos h.collect]
    refine .done (b := ()) rfl ⟨h.collect, fun other mem => ?_⟩ ?_
    · have mem : other ∈ (env.errors.push d).toList := mem
      rw [Array.toList_push] at mem
      rcases mem_append.mp mem with mem | mem
      · exact h.noted other mem
      · rw [mem_singleton.mp mem]
        exact isSemantic
    · show env.errors.toList <+: (env.errors.push d).toList
      rw [Array.toList_push]
      exact prefix_append _ _
  agrees env env' h := by
    rw [exec_report, exec_report, if_pos h.collect, if_neg (by simp [h.strict])]
    have noted : (env.errors.push d).toList = [d] := by
      rw [h.none]
      rfl
    exact .parted noted h.none'

theorem Modal.throw {R : α → α → Prop} {d : Diagnostic} (isGrammar : d.stage = .grammar) :
    Modal R (throw d) (throw d) where
  gathers _ h := .failed isGrammar h prefix_rfl
  agrees _ _ h := .failed h

theorem modal_diagnosed {R : α → α → Prop} {fault : Fault} {position : Option Position}
    {next : Diagnostic → Check α} (h : ∀ line, Modal R (next ⟨fault, some line, position⟩)
      (next ⟨fault, some line, position⟩)) :
    Modal R (diagnose fault position >>= next) (diagnose fault position >>= next) where
  gathers env collects := (h env.line).gathers env collects
  agrees env env' paired := by
    have agrees := (h env.line).agrees env env' paired
    show Agree R ((next ⟨fault, some env.line, position⟩).exec env)
      ((next ⟨fault, some env'.line, position⟩).exec env')
    rw [paired.line]
    exact agrees

theorem along_modal : Along id Eq Modal where
  injective := Function.injective_id
  alike eq := eq ▸ ⟨rfl, rfl⟩
  done related :=
    { gathers := fun _ h => .done related h prefix_rfl
      agrees := fun _ _ h => .done related h }
  chain := .chain
  read then_ :=
    { gathers := fun env h => (then_ env env (.refl env)).gathers env h
      agrees := fun env env' h => (then_ env env' h.toLike).agrees env env' h }
  update like plain plain' := .modifyGet
    (fun env env' h => ⟨(like env env' h.toLike).1, (like env env' h.toLike).2,
      (plain env).collect.trans h.collect, (plain' env').collect.trans h.strict,
      (plain env).errors.trans h.none, (plain' env').errors.trans h.none',
      (plain' env').jumps.trans (h.jumps.trans (plain env).jumps.symm)⟩)
    (fun env => (plain env).collect) fun env => (plain env).errors
  report same _ := same ▸ modal_diagnosed fun _ => modal_report rfl

end Check

namespace Parse

theorem along_modal : Along id Eq Check.Modal Eq where
  toAlong := Check.along_modal
  next := by
    rintro ⟨past, rest⟩ _ rfl
    cases rest with
    | nil => exact .inl ⟨_, _, rfl, rfl⟩
    | cons token rest => exact .inr ⟨_, _, token, _, _, _, rfl, rfl, rfl, fun _ => rfl⟩
  length same := same ▸ rfl
  alter like calm calm' := .modify
    (fun env env' h => ⟨like env env' h.toLike,
      (calm env).collect.trans h.collect, (calm' env').collect.trans h.strict,
      (calm env).errors.trans h.none, (calm' env').errors.trans h.none',
      (calm' env').jumps.trans (h.jumps.trans (calm env).jumps.symm)⟩)
    (fun env => (calm env).collect) fun env => (calm env).errors
  fail same := same ▸ Check.modal_diagnosed fun _ => .throw rfl
  failHere same := same ▸ Check.modal_diagnosed fun _ => .throw rfl
  reportHere same _ := same ▸ Check.modal_diagnosed fun _ => Check.modal_report rfl

/-- A parser for which collecting faults makes no difference up to the first fault. -/
abbrev Modal (parser : Parse α) : Prop :=
  Side Check.Modal Eq Eq parser parser

theorem Modal.bind {parser : Parse α} {next : α → Parse β} (first : Modal parser)
    (then_ : ∀ a, Modal (next a)) : Modal (parser >>= next) :=
  Along.same along_modal first then_

theorem Modal.ret (a : α) : Modal (pure a) :=
  Along.ret along_modal rfl

theorem Modal.lift {check : Check α} (h : Check.Modal Eq check check) : Modal (liftM check) :=
  Along.lift along_modal h

theorem Modal.ite {p : Prop} [Decidable p] {yes no : Parse α} (then_ : Modal yes) (else_ : Modal no) :
    Modal (if p then yes else no) :=
  Along.ite along_modal (fun _ => then_) fun _ => else_

theorem Modal.getThe_bind {next : Env → Parse β} (then_ : ∀ env, Modal (next env))
    (same : ∀ env env' : Env, env.Paired env' → next env' = next env) : Modal (getThe Env >>= next) := by
  rintro s _ rfl
  refine ⟨fun env h => (then_ env s s rfl).gathers env h, fun env env' h => ?_⟩
  have agrees := (then_ env s s rfl).agrees env env' h
  show Check.Agree _ (Check.exec ((next env).run s) env) (Check.exec ((next env').run s) env')
  rw [same env env' h]
  exact agrees

theorem modal_advance : Modal advance := by
  rintro ⟨past, rest⟩ _ rfl
  cases rest with
  | nil => exact Along.failHere along_modal rfl
  | cons token rest => exact Check.Along.done Check.along_modal ⟨rfl, rfl⟩

theorem modal_accept (kind : TokenKind) : Modal (accept kind) := by
  refine .bind (fun s _ same => ?_) fun _ => .ret _
  obtain rfl := same
  unfold accept?
  simp only [StateT.run_bind, StateT.run_get, pure_bind]
  split <;> exact Check.Along.done Check.along_modal ⟨rfl, rfl⟩

theorem modal_failAt (token : Token) (fault : GrammarFault) :
    Modal (liftM (Check.failAt token fault : Check α)) :=
  .lift (Along.fail along_modal rfl)

theorem modal_lineNumber (token : Token) : Modal (lineNumber token) := by
  unfold lineNumber
  split
  next => exact .ret _
  next => exact modal_failAt _ _

theorem modal_lineLabel : Modal lineLabel := by
  refine .bind modal_advance fun token => ?_
  have numbered : Modal (do
      let number ← lineNumber token
      if (← getThe Env).lines.any fun line => line.1 == number then
        Check.failAt token (.duplicateLine number)
      modifyThe Env fun env =>
        { env with line := number, lines := (number, none) :: env.lines }) := by
    refine .bind (modal_lineNumber _) fun number => .getThe_bind (fun env => ?_)
      fun env env' h => by rw [h.lines_eq]
    have entered : Modal (modifyThe Env fun env =>
        { env with line := number, lines := (number, none) :: env.lines }) :=
      .lift (.modify (fun env env' h => { h with lines := by rw [h.lines]; rfl, line := rfl })
        (fun _ => rfl) fun _ => rfl)
    exact .ite (.bind (modal_failAt _ _) fun _ => entered) entered
  exact .ite (.bind (modal_failAt _ _) fun _ => numbered) numbered

theorem modal_gotoStatement : Modal gotoStatement := by
  refine .bind (along_expect along_modal rfl) fun token => .bind (modal_lineNumber token) fun target => ?_
  refine Along.into along_modal (Along.lift along_modal (Check.along_node Check.along_modal (.goto target) []))
    fun node => ?_
  refine Along.same along_modal (Along.lift along_modal (Check.along_attach Check.along_modal node)) fun _ => ?_
  refine Modal.lift (.modify (fun env env' h => { h with jumps := ?_ }) (fun _ => rfl) fun _ => rfl)
  dsimp only
  rw [h.jumps, h.line, h.scopes]
  rfl

theorem modal_statementBody (token : Token) : Modal (statementBody token) := by
  by_cases jumps : token.kind = .keyword .GOTO
  · unfold statementBody
    rw [jumps]
    exact modal_gotoStatement
  · exact along_statementBody along_modal rfl jumps

theorem modal_statement : Modal statement := by
  refine .bind modal_lineLabel fun _ => .bind modal_advance fun token => ?_
  refine .bind (modal_statementBody _) fun _ => .getThe_bind (fun env => ?_) fun env env' h => by
    rw [h.line]
    rfl
  refine .bind (.lift (Check.along_record Check.along_modal _ _)) fun _ => ?_
  refine .bind (modal_accept _) fun _ => .ite ?_ (.ret _)
  exact Along.peekKind?_bind along_modal fun s s' same => Along.failHere along_modal same

theorem modal_statements (bound : Nat) : Modal (statements bound) := by
  induction bound with
  | zero => exact .ret _
  | succ bound ih =>
    rintro s _ rfl
    exact Modal.ite (p := s.atEnd) (.ret _) (.bind modal_statement fun _ => ih) s s rfl

theorem modal_checkClosed : Modal checkClosed := by
  refine .getThe_bind (fun env => ?_) fun env env' h => by rw [h.blocks_eq]
  split
  next => exact .ret _
  next => exact fun _ _ _ => .throw rfl

theorem modal_checkJump (jump : Jump) : Modal (checkJump jump) := by
  refine .getThe_bind (fun env => ?_) fun env env' h => by rw [h.lines_eq]
  have reported (fault : SemanticFault) : Modal (liftM (Check.report
      { fault := .semantic fault, line := jump.line, position := jump.position })) :=
    .lift (Check.modal_report rfl)
  split
  next =>
    refine .ite (.ret _) (.ite ?_ (reported _))
    exact .lift (Check.along_record Check.along_modal _ _)
  next => exact reported _
  next => exact reported _

theorem modal_program : Modal program := by
  have jumps (jumps : List Jump) : Modal (jumps.forM checkJump) := by
    induction jumps with
    | nil => exact .ret _
    | cons jump jumps ih => exact .bind (modal_checkJump jump) fun _ => ih
  rintro s _ rfl
  refine Modal.bind (modal_statements _) (fun _ => .bind modal_checkClosed fun _ => ?_) s s rfl
  exact .getThe_bind (fun env => jumps _) fun env env' h => by rw [h.jumps]

end Parse

/-- Either both ways of treating faults find none and leave the same program, or the first fault that
is collected is the one that ends the other parse. -/
theorem Parse.outcomes_agree (tokens : List Token) :
    found (outcome tokens true) = [] ∧ found (outcome tokens false) = [] ∧
        (outcome tokens false).2.toProgram = (outcome tokens true).2.toProgram ∨
      ∃ d others, found (outcome tokens true) = d :: others ∧ found (outcome tokens false) = [d] := by
  have start : ({ collect := true } : Env).Paired { collect := false } :=
    ⟨{ Env.Like.refl { collect := true } with }, rfl, rfl, rfl, rfl, rfl⟩
  have agrees : Check.Agree _ (outcome tokens true) (outcome tokens false) :=
    (modal_program _ _ rfl).agrees _ _ start
  generalize outcome tokens true = full, outcome tokens false = fast at agrees
  cases agrees with
  | done _ paired =>
    exact .inl ⟨by simp [found, paired.none], by simp [found, paired.none'], paired.toProgram⟩
  | @failed d _ _ paired => exact .inr ⟨d, [], by simp [found, paired.none], by simp [found, paired.none']⟩
  | @parted result d others env stop noted none =>
    cases result with
    | error last => exact .inr ⟨d, others ++ [last], by simp [found, noted], by simp [found, none]⟩
    | ok => exact .inr ⟨d, others, by simp [found, noted], by simp [found, none]⟩

theorem Parse.gathers_program (tokens : List Token) : Check.Gathers
    (fun read read' => read.1 = read'.1 ∧ read.2 = read'.2) { collect := true } (outcome tokens true) :=
  (modal_program _ _ rfl).gathers _ ⟨rfl, by simp⟩

theorem Parse.outcome_ok_iff (tokens : List Token) :
    (∃ s env, outcome tokens true = (.ok ((), s), env)) ↔
      ∀ d ∈ found (outcome tokens true), d.stage ≠ .grammar := by
  have gathers := gathers_program tokens
  rcases eq : outcome tokens true with ⟨d | ⟨⟨⟩, s⟩, env⟩
  · rw [eq] at gathers
    cases gathers with
    | failed isGrammar =>
      simp only [found, mem_append, mem_singleton, Prod.mk.injEq, reduceCtorEq, false_and,
        exists_false, false_iff]
      exact fun none => none d (.inr rfl) isGrammar
  · rw [eq] at gathers
    cases gathers with
    | done _ collects =>
      refine ⟨fun _ d mem isGrammar => ?_, fun _ => ⟨s, env, rfl⟩⟩
      cases (collects.noted d mem).symm.trans isGrammar

/-- Both ways of treating faults accept the same programs, and report the same fault first. -/
theorem parse_agree (tokens : List Token) :
    (∃ program, (parse tokens false).result = .ok program ∧
        (parse tokens true).result = .ok program) ∨
      ∃ d others, (parse tokens false).result = .error ⟨d, []⟩ ∧
        (parse tokens true).result = .error ⟨d, others⟩ := by
  rw [result_parse_eq, result_parse_eq]
  rcases Parse.outcomes_agree tokens with ⟨full, fast, same⟩ | ⟨d, others, full, fast⟩
  · rw [full, fast, same]
    exact .inl ⟨_, rfl, rfl⟩
  · rw [full, fast]
    exact .inr ⟨d, others, rfl, rfl⟩

theorem parse_strict {tokens : List Token} {collect : Bool} {program : Program}
    (h : (parse tokens collect).result = .ok program) :
    (parse tokens false).result = .ok program := by
  cases collect with
  | false => exact h
  | true =>
    obtain ⟨accepted, fast, full⟩ | ⟨d, others, _, full⟩ := parse_agree tokens
    · rw [full] at h
      cases h
      exact fast
    · cases full.symm.trans h

end LineBasic
