import LineBasic.Proofs.Parse.Growth

/-!
What a line of the source does to the state of a parse that stops at the first semantic fault.
-/

namespace LineBasic

/-- The jump out of a block that an event warns of: its target and its line. -/
def Event.leaving? : Event → Option (Nat × Nat)
  | .warned (.leavesScope target line) => some (target, line)
  | _ => none

namespace Parse

namespace Env

def leaving (env : Env) : List (Nat × Nat) :=
  env.log.toList.filterMap Event.leaving?

/-- The state with one more statement in the innermost block. -/
def appended (env : Env) (node : Node) : Env :=
  env.updateCurrent fun block => { block with statements := block.statements.push node }

/-- The state once the current line's statement is in the innermost block. -/
def attached (env : Env) (node : Node) : Env :=
  (env.appended node).markLine

/-- The state with a new block, under the next number. -/
def opened (env : Env) (opening : Opening) : Env :=
  { env with
    size := env.size + 1
    blocks := { opening, block := { id := env.size, line := env.line } } :: env.blocks }

/-- The state with one more jump, from the innermost block. -/
def jumped (env : Env) (target : Nat) (position : Position) : Env :=
  { env with jumps := env.jumps.push ⟨target, env.line, env.scopes.map Block.id, position⟩ }

/-- Statements without blocks are put into the innermost block, one after another. -/
inductive Attaches : Env → Env → Prop
  | done {env env' : Env} : env.Grows env' → Attaches env env'
  | attach {env env₁ env' : Env} {node : Node} : env.Grows env₁ →
      node.IsSimple env₁.symbols env₁.strings env₁.visible →
      (∀ target, node.kind ≠ .goto target) → node.line = env₁.line →
      Attaches (env₁.attached node) env' → Attaches env env'

inductive Body : Env → Env → Prop
  | attaches {env env' : Env} : Attaches env env' → Body env env'
  | goto {env : Env} (target : Nat) (position : Position) :
      Body env (({ env with size := env.size + 1 }.attached
        ⟨env.size, env.line, .goto target, []⟩).jumped target position)
  | loop {env env₁ : Env} {start limit step : Node} : env.Grows env₁ →
      start.IsStart env₁.symbols env₁.strings env₁.visible → env₁.IsExpression limit →
      env₁.IsExpression step →
      Body env ({ env₁ with size := env₁.size + 1 }.markLine.opened
        (.loop env₁.size env₁.line start limit step))
  | branch {env env₁ : Env} {condition : Node} : env.Grows env₁ →
      condition.IsComparison env₁.symbols env₁.strings env₁.visible →
      Body env ({ env₁ with size := env₁.size + 1 }.markLine.opened
        (.branch env₁.size env₁.line condition))
  | otherwise {env : Env} {id line : Nat} {condition : Node} {consequence : Block}
      {outer : List OpenBlock} : env.blocks = ⟨.branch id line condition, consequence⟩ :: outer →
      Body env ({ env with blocks := outer }.opened (.otherwise id line condition consequence.node))
  | close {env : Env} {opening : Opening} {block : Block} {outer : List OpenBlock} :
      env.blocks = ⟨opening, block⟩ :: outer →
      Body env ({ env with blocks := outer }.appended (opening.close block.node))

/-- The state at the start of a line. -/
def labelled (env : Env) (number : Nat) : Env :=
  { env with line := number, lines := (number, none) :: env.lines }

/-- What a whole line does. Its number is none of the others'. -/
def Line (env env' : Env) : Prop :=
  ∃ number env₁, (∀ line ∈ env.lines, line.1 ≠ number) ∧ Body (env.labelled number) env₁ ∧
    env₁.Grows env'

namespace Attaches

variable {env env' env'' : Env}

theorem grow (grows : env.Grows env') (h : Attaches env' env'') : Attaches env env'' := by
  cases h with
  | done grows' => exact .done (grows.trans grows')
  | attach grows' simple noJump line rest =>
    exact .attach (grows.trans grows') simple noJump line rest

theorem trans (first : Attaches env env') (second : Attaches env' env'') : Attaches env env'' := by
  induction first with
  | done grows => exact second.grow grows
  | attach grows simple noJump line _ ih => exact .attach grows simple noJump line (ih second)

theorem one {node : Node} (grows : env.Grows env')
    (simple : node.IsSimple env'.symbols env'.strings env'.visible)
    (noJump : ∀ target, node.kind ≠ .goto target) (line : node.line = env'.line) :
    Attaches env (env'.attached node) :=
  .attach grows simple noJump line (.done (.refl _))

end Attaches

section Attached

variable (env : Env) (node : Node)

@[simp] theorem symbols_attached : (env.attached node).symbols = env.symbols := by
  unfold attached appended markLine updateCurrent
  split <;> rfl

@[simp] theorem strings_attached : (env.attached node).strings = env.strings := by
  unfold attached appended markLine updateCurrent
  split <;> rfl

@[simp] theorem size_attached : (env.attached node).size = env.size := by
  unfold attached appended markLine updateCurrent
  split <;> rfl

@[simp] theorem collect_attached : (env.attached node).collect = env.collect := by
  unfold attached appended markLine updateCurrent
  split <;> rfl

@[simp] theorem line_attached : (env.attached node).line = env.line := by
  unfold attached appended markLine updateCurrent
  split <;> rfl

@[simp] theorem visible_attached : (env.attached node).visible = env.visible := by
  cases env using Env.byBlocks <;> rfl

end Attached

/-- A variable that is visible and whose size is known. -/
def Sees (env : Env) (number : Nat) : Prop :=
  number ∈ env.visible ∧ ∃ v, env.symbols[number]? = some v ∧ (Shape.size? v.dims).isSome

theorem Sees.grow {env env' : Env} {number : Nat} (h : env.Sees number) (grows : env.Grows env') :
    env'.Sees number := by
  obtain ⟨mem, v, found, size⟩ := h
  obtain ⟨v', found', dims⟩ := grows.tables.shapes number v found
  exact ⟨grows.visible mem, v', found', by rwa [dims]⟩

theorem Sees.attached {env : Env} {number : Nat} (h : env.Sees number) (node : Node) :
    (env.attached node).Sees number := by
  simpa [Sees] using h

end Env

end Parse

namespace Check

open Parse (Env)

variable {env env' : Env} {n : Node}

theorem Yields.diagnose {fault : Fault} {position : Option Position} {d : Diagnostic}
    (h : (diagnose fault position).Yields env d env') : env = env' := by
  replace h := yields_get_bind.mp h
  exact (yields_pure.mp h).2

theorem yields_append {u : Unit} : (append n).Yields env u env' ↔ env.appended n = env' :=
  yields_modify

theorem yields_attach {u : Unit} : (attach n).Yields env u env' ↔ env.attached n = env' := by
  constructor
  · intro h
    obtain ⟨_, _, h₁, h⟩ := yields_bind.mp h
    obtain rfl := yields_append.mp h₁
    exact yields_modify.mp h
  · rintro rfl
    rfl

theorem yields_openBlock {opening : Parse.Opening} {u : Unit} :
    (openBlock opening).Yields env u env' ↔ env.opened opening = env' := by
  constructor
  · intro h
    replace h := yields_fresh_bind.mp h
    exact yields_modify.mp h
  · rintro rfl
    rfl

end Check

namespace Parse

variable {s s' : TokenStream} {env env' : Env} {u : Unit}

theorem yields_lineNumber {token : Token} {number : Nat}
    (h : (lineNumber token).Yields s env number s' env') :
    s = s' ∧ env = env' ∧ Text.natural? token.text.toList = some number ∧ number < 0x100000000 := by
  unfold lineNumber at h
  split at h
  next eq =>
    obtain ⟨rfl, rfl, rfl⟩ := yields_pure.mp h
    obtain ⟨eq, bound⟩ := Option.filter_eq_some_iff.mp eq
    exact ⟨rfl, rfl, eq, by simpa using bound⟩
  next => exact absurd h not_yields_failAt

theorem Yields.openLoop {start limit step : Node} (h : Yields (do
      let line := (← getThe Env).line
      if let .literal value := step.kind then
        if value.text.toList.head? = some '-' then
          Check.record (.warned (.countsDown line value.text))
      let id ← Check.fresh
      modifyThe Env Env.markLine
      Check.openBlock (.loop id line start limit step)) s env u s' env') :
    s = s' ∧ ∃ log, { env with size := env.size + 1, log }.markLine.opened
      (.loop env.size env.line start limit step) = env' := by
  have finish : ∀ {log : Array Event}, Yields (do
        let id ← Check.fresh
        modifyThe Env Env.markLine
        Check.openBlock (.loop id env.line start limit step)) s { env with log } u s' env' →
      s = s' ∧ ∃ log, { env with size := env.size + 1, log }.markLine.opened
        (.loop env.size env.line start limit step) = env' := by
    intro log h
    obtain ⟨_, _, check, h⟩ := yields_lift_bind.mp h
    obtain ⟨rfl, rfl⟩ := Check.yields_fresh.mp check
    replace h := yields_modifyThe_bind.mp h
    obtain ⟨check, rfl⟩ := yields_lift.mp h
    obtain rfl := Check.yields_openBlock.mp check
    exact ⟨rfl, log, rfl⟩
  replace h := yields_getThe_bind.mp h
  split at h
  next =>
    split at h
    next =>
      obtain ⟨_, _, check, h⟩ := yields_lift_bind.mp h
      obtain rfl := Check.yields_modify.mp check
      exact finish h
    next => exact finish h
  next => exact finish h

theorem Yields.lineLabel (h : lineLabel.Yields s env u s' env') :
    ∃ token number, s.rest = token :: s'.rest ∧ token.kind = .literal .integer ∧
      Text.natural? token.text.toList = some number ∧ number < 0x100000000 ∧
      (∀ line ∈ env.lines, line.1 ≠ number) ∧ env.labelled number = env' := by
  obtain ⟨token, s₁, read, _, h⟩ := yields_advance_bind.mp h
  by_cases kind : token.kind = .literal .integer
  · simp only [kind, ne_eq, not_true_eq_false, if_false] at h
    obtain ⟨number, _, _, h₂, h⟩ := yields_bind.mp h
    obtain ⟨rfl, rfl, value, bound⟩ := yields_lineNumber h₂
    replace h := yields_getThe_bind.mp h
    split at h
    next =>
      obtain ⟨_, _, _, h₄, _⟩ := yields_bind.mp h
      exact absurd h₄ not_yields_failAt
    next other =>
      obtain ⟨rfl, rfl⟩ := yields_modifyThe.mp h
      refine ⟨token, number, read, kind, value, bound, fun line mem eq => other ?_, rfl⟩
      exact List.any_eq_true.mpr ⟨line, mem, by simpa using eq⟩
  · simp only [kind, ne_eq, not_false_eq_true, if_true] at h
    obtain ⟨_, _, _, h₂, _⟩ := yields_bind.mp h
    exact absurd h₂ not_yields_failAt

/-- What lines do, one after another. -/
inductive Env.Lines : Env → Env → Prop
  | nil (env : Env) : Lines env env
  | cons {env env₁ env' : Env} : env.Line env₁ → Lines env₁ env' → Lines env env'

/-- A jump leads to a statement of a block around it. -/
def Jump.Lands (jump : Jump) (lines : List (Nat × Option Nat)) : Prop :=
  ∃ block ∈ jump.scopes, lines.lookup jump.target = some (some block)

/-- What the check finds by the notes of the lines. -/
def Jump.fault? (lines : List (Nat × Option Nat)) (jump : Jump) : Option SemanticFault :=
  match lines.lookup jump.target with
  | some (some block) => if block ∈ jump.scopes then none else some (.targetNested jump.target)
  | some none => some (.targetNotExecutable jump.target)
  | none => some (.targetMissing jump.target)

def Jump.diagnostic (jump : Jump) (fault : SemanticFault) : Diagnostic :=
  { fault := .semantic fault, line := jump.line, position := jump.position }

/-- What the check warns of by the notes of the lines. -/
def Jump.warning? (lines : List (Nat × Option Nat)) (jump : Jump) : Option (Nat × Nat) :=
  match lines.lookup jump.target with
  | some (some block) =>
    if jump.scopes.head? ≠ some block ∧ block ∈ jump.scopes then some (jump.target, jump.line) else none
  | _ => none

/-- The diagnostics of all jumps at fault. -/
def Jump.faults (lines : List (Nat × Option Nat)) (jumps : List Jump) : List Diagnostic :=
  jumps.filterMap fun jump => (jump.fault? lines).map jump.diagnostic

theorem Jump.lands_of_fault? {jump : Jump} {lines : List (Nat × Option Nat)}
    (h : jump.fault? lines = none) : jump.Lands lines := by
  unfold fault? at h
  split at h
  next block found =>
    split at h
    next mem => exact ⟨block, mem, found⟩
    next => cases h
  next => cases h
  next => cases h

theorem exec_checkJump (jump : Jump) (s : TokenStream) (env : Env) :
    (∃ errors log, (checkJump jump).exec s env = (.ok ((), s), { env with errors, log }) ∧
        errors.toList = env.errors.toList ++ Jump.faults env.lines [jump] ∧
        log.toList.filterMap Event.leaving? = env.leaving ++ (jump.warning? env.lines).toList ∧
        (env.collect = false → Jump.faults env.lines [jump] = [])) ∨
      ∃ d, (checkJump jump).exec s env = (.error d, env) ∧ env.collect = false ∧
        Jump.faults env.lines [jump] = [d] := by
  have reported (fault : SemanticFault) :
      (∃ errors log, (liftM (Check.report (jump.diagnostic fault)) : Parse Unit).exec s env =
          (.ok ((), s), { env with errors, log }) ∧
        errors.toList = env.errors.toList ++ [jump.diagnostic fault] ∧
        log.toList.filterMap Event.leaving? = env.leaving ++ [] ∧
        (env.collect = false → [jump.diagnostic fault] = [])) ∨
      ∃ d, (liftM (Check.report (jump.diagnostic fault)) : Parse Unit).exec s env = (.error d, env) ∧
        env.collect = false ∧ [jump.diagnostic fault] = [d] := by
    rw [exec_lift, Check.exec_report]
    by_cases collect : env.collect
    · rw [if_pos collect]
      exact .inl ⟨_, _, rfl, Array.toList_push, by simp [Env.leaving, Event.leaving?],
        by simp [collect]⟩
    · rw [if_neg collect]
      exact .inr ⟨_, rfl, by simpa using collect, rfl⟩
  unfold checkJump Jump.faults Jump.fault? Jump.warning?
  rw [exec_bind, exec_getThe, List.filterMap_cons, List.filterMap_nil]
  dsimp only
  rcases env.lines.lookup jump.target with _ | _ | block
  · exact reported _
  · exact reported _
  · dsimp only
    by_cases own : jump.scopes.head? = some block
    · rw [if_pos own, if_pos (List.mem_of_head? own), if_neg fun h => h.1 own]
      exact .inl ⟨_, _, rfl, by simp, by simp [Env.leaving], fun _ => rfl⟩
    · rw [if_neg own]
      by_cases around : block ∈ jump.scopes
      · rw [if_pos around, if_pos around, if_pos ⟨own, around⟩]
        exact .inl ⟨_, env.log.push _, rfl, by simp, by simp [Env.leaving, Event.leaving?],
          fun _ => rfl⟩
      · rw [if_neg around, if_neg around, if_neg fun h => around h.2]
        exact reported _

/-- The jumps are checked one after another, up to the first fault or to the last jump. -/
theorem exec_checkJumps (jumps : List Jump) (s : TokenStream) (env : Env) :
    (∃ errors log, (jumps.forM checkJump).exec s env = (.ok ((), s), { env with errors, log }) ∧
        errors.toList = env.errors.toList ++ Jump.faults env.lines jumps ∧
        log.toList.filterMap Event.leaving? =
          env.leaving ++ jumps.filterMap (Jump.warning? env.lines) ∧
        (env.collect = false → Jump.faults env.lines jumps = [])) ∨
      ∃ d errors log, (jumps.forM checkJump).exec s env = (.error d, { env with errors, log }) ∧
        errors.toList = env.errors.toList ∧ env.collect = false ∧
        d ∈ Jump.faults env.lines jumps := by
  induction jumps generalizing env with
  | nil => exact .inl ⟨_, _, rfl, by simp [Jump.faults], by simp [Env.leaving], fun _ => rfl⟩
  | cons jump jumps ih =>
    have split : Jump.faults env.lines (jump :: jumps) =
        Jump.faults env.lines [jump] ++ Jump.faults env.lines jumps :=
      List.filterMap_append (l := [jump])
    have eq' : (jump :: jumps).forM checkJump = checkJump jump >>= fun _ => jumps.forM checkJump := rfl
    rw [eq', exec_bind, split]
    rcases exec_checkJump jump s env with ⟨errors, log, eq, found, warned, none⟩ | ⟨d, eq, strict, found⟩
    · rw [eq]
      rcases ih { env with errors, log } with
        ⟨errors', log', eq, found', warned', none'⟩ | ⟨d, errors', log', eq, same, strict, mem⟩
      · refine .inl ⟨errors', log', eq, by rw [found', found, List.append_assoc], ?_,
          fun strict => by rw [none strict, none' strict]; rfl⟩
        rw [warned', Env.leaving, warned, List.append_assoc, List.filterMap_cons]
        cases jump.warning? env.lines <;> rfl
      · rw [none strict, List.append_nil] at found
        exact .inr ⟨d, errors', log', eq, same.trans found, strict, List.mem_append_right _ mem⟩
    · rw [eq, found]
      exact .inr ⟨d, _, _, rfl, rfl, strict, by simp⟩

theorem Yields.checkJumps {jumps : List Jump} (h : (jumps.forM Parse.checkJump).Yields s env u s' env')
    (strict : env.collect = false) :
    (∀ jump ∈ jumps, jump.Lands env.lines) ∧ ∃ log, env' = { env with log } := by
  rcases exec_checkJumps jumps s env with ⟨errors, log, eq, same, _, none⟩ | ⟨_, _, _, eq, _⟩
  · cases eq.symm.trans h
    rw [none strict, List.append_nil] at same
    refine ⟨fun jump mem => Jump.lands_of_fault? ?_, log, by rw [Array.toList_inj.mp same]⟩
    simpa using List.filterMap_eq_nil_iff.mp (none strict) jump mem
  · cases eq.symm.trans h

end Parse

end LineBasic
