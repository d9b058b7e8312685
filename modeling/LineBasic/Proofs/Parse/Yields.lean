import LineBasic.Parse.Program

/-!
How checks and parsers end, one action at a time.
-/

namespace LineBasic

open Parse (Env)

variable {α β : Type}

namespace Check

/-- How a check ends in a state, and the state it leaves. -/
def exec (check : Check α) (env : Env) : Except Diagnostic α × Env :=
  check.run.run env

/-- The check succeeds with a result and leaves a state. -/
def Yields (check : Check α) (env : Env) (a : α) (env' : Env) : Prop :=
  check.exec env = (.ok a, env')

theorem exec_pure (a : α) (env : Env) : (pure a : Check α).exec env = (.ok a, env) := rfl

theorem exec_throw (d : Diagnostic) (env : Env) :
    (throw d : Check α).exec env = (.error d, env) := rfl

theorem exec_get (env : Env) : (get : Check Env).exec env = (.ok env, env) := rfl

theorem exec_modify (f : Env → Env) (env : Env) :
    (modify f : Check Unit).exec env = (.ok (), f env) := rfl

theorem exec_modifyGet (f : Env → α × Env) (env : Env) :
    (modifyGet f : Check α).exec env = (.ok (f env).1, (f env).2) := rfl

theorem exec_bind (check : Check α) (next : α → Check β) (env : Env) :
    (check >>= next).exec env = match check.exec env with
      | (.ok a, env') => (next a).exec env'
      | (.error d, env') => (.error d, env') := by
  rcases h : check.exec env with ⟨_ | a, env'⟩
  all_goals
    simp only [exec, ExceptT.run, StateT.run, bind, ExceptT.bind, ExceptT.mk, StateT.bind] at h ⊢
    rw [h]
    rfl

theorem exec_report (d : Diagnostic) (env : Env) : (report d).exec env =
    if env.collect then
      (.ok (), { env with errors := env.errors.push d, log := env.log.push (.recovered d) })
    else (.error d, env) := by
  rw [report, exec_bind, exec_get]
  dsimp only
  split <;> rfl

theorem yields_bind {check : Check α} {next : α → Check β} {env env'' : Env} {b : β} :
    (check >>= next).Yields env b env'' ↔
      ∃ a env', check.Yields env a env' ∧ (next a).Yields env' b env'' := by
  unfold Yields
  rw [exec_bind]
  constructor
  · intro h
    split at h
    next a env' eq => exact ⟨a, env', eq, h⟩
    next => simp at h
  · rintro ⟨a, env', eq, h⟩
    rw [eq]
    exact h

theorem yields_pure {a b : α} {env env' : Env} :
    (pure a : Check α).Yields env b env' ↔ a = b ∧ env = env' := by
  simp [Yields, exec_pure]

theorem yields_modify {f : Env → Env} {env env' : Env} {u : Unit} :
    (modify f : Check Unit).Yields env u env' ↔ f env = env' := by
  simp [Yields, exec_modify]

theorem yields_modifyGet {f : Env → α × Env} {env env' : Env} {a : α} :
    (modifyGet f : Check α).Yields env a env' ↔ (f env).1 = a ∧ (f env).2 = env' := by
  simp [Yields, exec_modifyGet]

theorem yields_get_bind {next : Env → Check β} {env env' : Env} {b : β} :
    (get >>= next).Yields env b env' ↔ (next env).Yields env b env' := by
  unfold Yields
  rw [exec_bind, exec_get]

theorem yields_modify_bind {f : Env → Env} {next : Unit → Check β} {env env' : Env} {b : β} :
    (modify f >>= next).Yields env b env' ↔ (next ()).Yields (f env) b env' := by
  unfold Yields
  rw [exec_bind, exec_modify]

theorem not_yields_failAt {token : Token} {fault : GrammarFault} {env env' : Env} {a : α} :
    ¬ (failAt token fault : Check α).Yields env a env' := by
  intro h
  obtain ⟨_, _, _, h⟩ := yields_bind.mp h
  simp [Yields, exec_throw] at h

end Check

namespace Parse

/-- The innermost block is the program's own, or one that is open. -/
theorem Env.byBlocks {motive : Env → Prop} (env : Env)
    (closed : ∀ env : Env, motive { env with blocks := [] })
    (opened : ∀ (env : Env) block outer, motive { env with blocks := block :: outer }) :
    motive env := by
  obtain ⟨_, _, _, _, _, _ | ⟨block, outer⟩⟩ := env
  · exact closed ⟨_, _, _, _, _, [], _, _, _, _, _⟩
  · exact opened ⟨_, _, _, _, _, [], _, _, _, _, _⟩ block outer

/-- How a parser ends in a place of the stream and a state, and the state it leaves. -/
def exec (parser : Parse α) (s : TokenStream) (env : Env) :
    Except Diagnostic (α × TokenStream) × Env :=
  (parser.run s).run.run env

/-- The parser succeeds with a result and leaves a place of the stream and a state. -/
def Yields (parser : Parse α) (s : TokenStream) (env : Env) (a : α) (s' : TokenStream)
    (env' : Env) : Prop :=
  parser.exec s env = (.ok (a, s'), env')

theorem exec_pure (a : α) (s : TokenStream) (env : Env) :
    (pure a : Parse α).exec s env = (.ok (a, s), env) := rfl

theorem exec_throw (d : Diagnostic) (s : TokenStream) (env : Env) :
    (throw d : Parse α).exec s env = (.error d, env) := rfl

theorem exec_get (s : TokenStream) (env : Env) :
    (get : Parse TokenStream).exec s env = (.ok (s, s), env) := rfl

theorem exec_set (s s' : TokenStream) (env : Env) :
    (set s' : Parse PUnit).exec s env = (.ok ((), s'), env) := rfl

theorem exec_getThe (s : TokenStream) (env : Env) :
    (getThe Env : Parse Env).exec s env = (.ok (env, s), env) := rfl

theorem exec_modifyThe (f : Env → Env) (s : TokenStream) (env : Env) :
    (modifyThe Env f : Parse PUnit).exec s env = (.ok ((), s), f env) := rfl

theorem exec_lift (check : Check α) (s : TokenStream) (env : Env) :
    (liftM check : Parse α).exec s env = match check.exec env with
      | (.ok a, env') => (.ok (a, s), env')
      | (.error d, env') => (.error d, env') := by
  show (check >>= fun a => (pure (a, s) : Check (α × TokenStream))).exec env = _
  rw [Check.exec_bind]
  rcases check.exec env with ⟨_ | a, env'⟩ <;> rfl

theorem exec_bind (parser : Parse α) (next : α → Parse β) (s : TokenStream) (env : Env) :
    (parser >>= next).exec s env = match parser.exec s env with
      | (.ok (a, s'), env') => (next a).exec s' env'
      | (.error d, env') => (.error d, env') := by
  show ((parser.run s : Check (α × TokenStream)) >>= fun r => (next r.1).run r.2).exec env = _
  rw [Check.exec_bind]
  rcases h : parser.exec s env with ⟨_ | ⟨a, s'⟩, env'⟩ <;>
    simp only [Check.exec, exec] at h ⊢ <;> rw [h]

theorem yields_bind {parser : Parse α} {next : α → Parse β} {s s'' : TokenStream}
    {env env'' : Env} {b : β} :
    (parser >>= next).Yields s env b s'' env'' ↔
      ∃ a s' env', parser.Yields s env a s' env' ∧ (next a).Yields s' env' b s'' env'' := by
  unfold Yields
  rw [exec_bind]
  constructor
  · intro h
    split at h
    next a s' env' eq => exact ⟨a, s', env', eq, h⟩
    next => simp at h
  · rintro ⟨a, s', env', eq, h⟩
    rw [eq]
    exact h

theorem yields_pure {a b : α} {s s' : TokenStream} {env env' : Env} :
    (pure a : Parse α).Yields s env b s' env' ↔ a = b ∧ s = s' ∧ env = env' := by
  simp [Yields, exec_pure, and_assoc]

theorem yields_modifyThe {f : Env → Env} {s s' : TokenStream} {env env' : Env} {u : Unit} :
    (modifyThe Env f : Parse Unit).Yields s env u s' env' ↔ s = s' ∧ f env = env' := by
  unfold Yields
  rw [exec_modifyThe]
  simp

theorem yields_lift {check : Check α} {s s' : TokenStream} {env env' : Env} {a : α} :
    (liftM check : Parse α).Yields s env a s' env' ↔ check.Yields env a env' ∧ s = s' := by
  unfold Yields Check.Yields
  rw [exec_lift]
  rcases check.exec env with ⟨_ | b, e⟩
  · simp
  · simp only [Prod.mk.injEq, Except.ok.injEq, and_right_comm]

section Binds

variable {s s' : TokenStream} {env env' : Env} {b : β}

theorem yields_get_bind {next : TokenStream → Parse β} :
    (get >>= next).Yields s env b s' env' ↔ (next s).Yields s env b s' env' := by
  unfold Yields
  rw [exec_bind, exec_get]

theorem yields_getThe_bind {next : Env → Parse β} :
    (getThe Env >>= next).Yields s env b s' env' ↔ (next env).Yields s env b s' env' := by
  unfold Yields
  rw [exec_bind, exec_getThe]

theorem yields_modifyThe_bind {f : Env → Env} {next : Unit → Parse β} :
    (modifyThe Env f >>= next).Yields s env b s' env' ↔ (next ()).Yields s (f env) b s' env' := by
  unfold Yields
  rw [exec_bind, exec_modifyThe]

theorem yields_lift_bind {check : Check α} {next : α → Parse β} :
    (liftM check >>= next).Yields s env b s' env' ↔
      ∃ a env₁, check.Yields env a env₁ ∧ (next a).Yields s env₁ b s' env' := by
  rw [yields_bind]
  constructor
  · rintro ⟨a, s₁, env₁, h, h'⟩
    obtain ⟨check, rfl⟩ := yields_lift.mp h
    exact ⟨a, env₁, check, h'⟩
  · rintro ⟨a, env₁, check, h⟩
    exact ⟨a, s, env₁, yields_lift.mpr ⟨check, rfl⟩, h⟩

end Binds

theorem not_yields_throw {d : Diagnostic} {s s' : TokenStream} {env env' : Env} {a : α} :
    ¬ (throw d : Parse α).Yields s env a s' env' := by
  simp [Yields, exec_throw]

theorem not_yields_failAt {token : Token} {fault : GrammarFault} {s s' : TokenStream}
    {env env' : Env} {a : α} :
    ¬ (liftM (Check.failAt token fault : Check α) : Parse α).Yields s env a s' env' :=
  fun h => Check.not_yields_failAt (yields_lift.mp h).1

theorem not_yields_failHere {fault : GrammarFault} {s s' : TokenStream} {env env' : Env} {a : α} :
    ¬ (failHere fault : Parse α).Yields s env a s' env' := by
  intro h
  obtain ⟨_, _, _, _, h⟩ := yields_bind.mp h
  obtain ⟨_, _, _, _, h⟩ := yields_bind.mp h
  exact not_yields_throw h

theorem yields_advance {s s' : TokenStream} {env env' : Env} {token : Token} :
    advance.Yields s env token s' env' ↔
      s.rest = token :: s'.rest ∧ token :: s.past = s'.past ∧ env = env' := by
  obtain ⟨past, rest⟩ := s
  obtain ⟨past', rest'⟩ := s'
  cases rest with
  | nil =>
    simp only [reduceCtorEq, false_and, iff_false]
    intro h
    replace h := yields_get_bind.mp h
    exact not_yields_failHere h
  | cons first rest =>
    show (_, _) = (_, _) ↔ _
    simp only [Prod.mk.injEq, Except.ok.injEq, TokenStream.mk.injEq, List.cons.injEq]
    constructor
    · rintro ⟨⟨rfl, rfl, rfl⟩, rfl⟩
      exact ⟨⟨rfl, rfl⟩, rfl, rfl⟩
    · rintro ⟨⟨rfl, rfl⟩, rfl, rfl⟩
      exact ⟨⟨rfl, rfl, rfl⟩, rfl⟩

theorem exec_expect_cons {kind : TokenKind} {token : Token} {past rest : List Token} {env : Env}
    (h : token.kind = kind) :
    (expect kind).exec ⟨past, token :: rest⟩ env = (.ok (token, ⟨token :: past, rest⟩), env) := by
  unfold expect
  rw [exec_bind, exec_get]
  simp only [TokenStream.consume, h, if_true]
  rfl

theorem yields_expect {kind : TokenKind} {s s' : TokenStream} {env env' : Env} {token : Token} :
    (expect kind).Yields s env token s' env' ↔
      s.rest = token :: s'.rest ∧ token :: s.past = s'.past ∧ token.kind = kind ∧ env = env' := by
  obtain ⟨past, rest⟩ := s
  obtain ⟨past', rest'⟩ := s'
  cases rest with
  | nil =>
    simp only [reduceCtorEq, false_and, iff_false]
    intro h
    replace h := yields_get_bind.mp h
    exact not_yields_failHere h
  | cons first rest =>
    by_cases hk : first.kind = kind
    · unfold Yields
      rw [exec_expect_cons hk]
      simp only [Prod.mk.injEq, Except.ok.injEq, TokenStream.mk.injEq, List.cons.injEq]
      constructor
      · rintro ⟨⟨rfl, rfl, rfl⟩, rfl⟩
        exact ⟨⟨rfl, rfl⟩, rfl, hk, rfl⟩
      · rintro ⟨⟨rfl, rfl⟩, rfl, _, rfl⟩
        exact ⟨⟨rfl, rfl, rfl⟩, rfl⟩
    · constructor
      · intro h
        replace h := yields_get_bind.mp h
        simp only [TokenStream.consume, if_neg hk] at h
        exact absurd h not_yields_failAt
      · rintro ⟨h, _, hk', _⟩
        cases h
        exact absurd hk' hk

theorem yields_accept? {kind : TokenKind} {s s' : TokenStream} {env env' : Env}
    {found : Option Token} :
    (accept? kind).Yields s env found s' env' ↔ env = env' ∧
      ((∃ token, some token = found ∧ s.rest = token :: s'.rest ∧ token :: s.past = s'.past ∧
          token.kind = kind) ∨
        none = found ∧ s = s' ∧ ∀ token ∈ s.rest.head?, token.kind ≠ kind) := by
  obtain ⟨past, rest⟩ := s
  obtain ⟨past', rest'⟩ := s'
  unfold Yields accept?
  rw [exec_bind, exec_get]
  cases rest with
  | nil =>
    simp [TokenStream.consume, exec_pure, and_comm]
  | cons first rest =>
    by_cases hk : first.kind = kind
    · simp only [TokenStream.consume, hk, if_true]
      show (_, _) = (_, _) ↔ _
      grind
    · simp only [TokenStream.consume, hk, if_false, exec_pure]
      grind

theorem yields_accept {kind : TokenKind} {s s' : TokenStream} {env env' : Env} {found : Bool} :
    (accept kind).Yields s env found s' env' ↔ env = env' ∧
      (true = found ∧ (∃ token, s.rest = token :: s'.rest ∧ token :: s.past = s'.past ∧
          token.kind = kind) ∨
        false = found ∧ s = s' ∧ ∀ token ∈ s.rest.head?, token.kind ≠ kind) := by
  constructor
  · intro h
    obtain ⟨token, s₁, env₁, h₁, h⟩ := yields_bind.mp h
    obtain ⟨rfl, rfl, rfl⟩ := yields_pure.mp h
    obtain ⟨rfl, ⟨token, rfl, read⟩ | ⟨rfl, rest⟩⟩ := yields_accept?.mp h₁
    · exact ⟨rfl, .inl ⟨rfl, token, read⟩⟩
    · exact ⟨rfl, .inr ⟨rfl, rest⟩⟩
  · rintro ⟨rfl, ⟨rfl, token, read⟩ | ⟨rfl, rest⟩⟩
    · exact yields_bind.mpr ⟨some token, s', env, yields_accept?.mpr ⟨rfl, .inl ⟨token, rfl, read⟩⟩,
        yields_pure.mpr ⟨rfl, rfl, rfl⟩⟩
    · exact yields_bind.mpr ⟨none, s', env, yields_accept?.mpr ⟨rfl, .inr ⟨rfl, rest⟩⟩,
        yields_pure.mpr ⟨rfl, rfl, rfl⟩⟩

section Reads

variable {s s' : TokenStream} {env env' : Env} {b : β} {kind : TokenKind}

theorem yields_advance_bind {next : Token → Parse β} :
    (advance >>= next).Yields s env b s' env' ↔ ∃ token s₁, s.rest = token :: s₁.rest ∧
      token :: s.past = s₁.past ∧ (next token).Yields s₁ env b s' env' := by
  rw [yields_bind]
  constructor
  · rintro ⟨token, s₁, _, h, h'⟩
    obtain ⟨read, past, rfl⟩ := yields_advance.mp h
    exact ⟨token, s₁, read, past, h'⟩
  · rintro ⟨token, s₁, read, past, h⟩
    exact ⟨token, s₁, env, yields_advance.mpr ⟨read, past, rfl⟩, h⟩

theorem yields_expect_bind {next : Token → Parse β} :
    (expect kind >>= next).Yields s env b s' env' ↔ ∃ token s₁, s.rest = token :: s₁.rest ∧
      token :: s.past = s₁.past ∧ token.kind = kind ∧ (next token).Yields s₁ env b s' env' := by
  rw [yields_bind]
  constructor
  · rintro ⟨token, s₁, _, h, h'⟩
    obtain ⟨read, past, isKind, rfl⟩ := yields_expect.mp h
    exact ⟨token, s₁, read, past, isKind, h'⟩
  · rintro ⟨token, s₁, read, past, isKind, h⟩
    exact ⟨token, s₁, env, yields_expect.mpr ⟨read, past, isKind, rfl⟩, h⟩

theorem yields_accept_bind {next : Bool → Parse β} :
    (accept kind >>= next).Yields s env b s' env' ↔ ∃ found s₁,
      (true = found ∧ (∃ token, s.rest = token :: s₁.rest ∧ token :: s.past = s₁.past ∧
          token.kind = kind) ∨
        false = found ∧ s = s₁ ∧ ∀ token ∈ s.rest.head?, token.kind ≠ kind) ∧
      (next found).Yields s₁ env b s' env' := by
  rw [yields_bind]
  constructor
  · rintro ⟨found, s₁, _, h, h'⟩
    obtain ⟨rfl, read⟩ := yields_accept.mp h
    exact ⟨found, s₁, read, h'⟩
  · rintro ⟨found, s₁, read, h⟩
    exact ⟨found, s₁, env, yields_accept.mpr ⟨rfl, read⟩, h⟩

theorem yields_peekKind?_bind {next : Option TokenKind → Parse β} :
    (peekKind? >>= next).Yields s env b s' env' ↔ (next s.peekKind?).Yields s env b s' env' := by
  unfold Yields
  rw [exec_bind]
  rfl

end Reads

/-- The runs of an item, each of which reads on, up to the first one that finds nothing. -/
inductive Repeats (item : Parse (Option α)) : TokenStream → Env → List α → TokenStream → Env → Prop
  | stop {s : TokenStream} {env : Env} : item.Yields s env none s env → Repeats item s env [] s env
  | more {s s₁ s' : TokenStream} {env env₁ env' : Env} {a : α} {as : List α} :
      item.Yields s env (some a) s₁ env₁ → s₁.rest.length < s.rest.length →
      Repeats item s₁ env₁ as s' env' → Repeats item s env (a :: as) s' env'

theorem Repeats.many {item : Parse (Option α)} {s s' : TokenStream} {env env' : Env} {as : List α}
    (h : Repeats item s env as s' env') : (many item).Yields s env as s' env' := by
  have run : ∀ bound, s.rest.length ≤ bound → (many.go item bound).Yields s env as s' env' := by
    induction h with
    | stop ends =>
      intro bound _
      cases bound with
      | zero => exact yields_pure.mpr ⟨rfl, rfl, rfl⟩
      | succ bound => exact yields_bind.mpr ⟨_, _, _, ends, yields_pure.mpr ⟨rfl, rfl, rfl⟩⟩
    | more first fewer _ ih =>
      intro bound enough
      cases bound with
      | zero => omega
      | succ bound =>
        exact yields_bind.mpr ⟨_, _, _, first, yields_bind.mpr
          ⟨_, _, _, ih bound (by omega), yields_pure.mpr ⟨rfl, rfl, rfl⟩⟩⟩
  exact yields_get_bind.mpr (run _ (Nat.le_refl _))

/-- How the parse of a list of tokens ends. -/
def outcome (tokens : List Token) (collect : Bool) :
    Except Diagnostic (Unit × TokenStream) × Env :=
  program.exec (.ofTokens tokens) { collect }

/-- What a parse reports: the faults it has noted, then the one that has ended it. -/
def found : Except Diagnostic (Unit × TokenStream) × Env → List Diagnostic
  | (.ok _, env) => env.errors.toList
  | (.error d, env) => env.errors.toList ++ [d]

end Parse

theorem result_parse_eq (tokens : List Token) (collect : Bool) :
    (parse tokens collect).result = match Parse.found (Parse.outcome tokens collect) with
      | [] => .ok (Parse.outcome tokens collect).2.toProgram
      | d :: ds => .error ⟨d, ds⟩ := by
  have eq : Parse.outcome tokens collect =
      ((Parse.program.run (.ofTokens tokens)).run).run { collect } := rfl
  unfold parse
  rw [← eq]
  rcases Parse.outcome tokens collect with ⟨_ | _, env⟩
  · simp only [Parse.found, Array.toList_push]
    cases env.errors.toList <;> rfl
  · simp only [Parse.found]
    cases env.errors.toList <;> rfl

theorem eq_ok_of_toOption {ε α : Type} {x : Except ε α} {a : α} (h : x.toOption = some a) :
    x = .ok a := by
  cases x with
  | error => cases h
  | ok b =>
    cases h
    rfl

theorem exists_ok_of_bind {ε α β : Type} {x : Except ε α} {f : α → Option β} {b : β}
    (h : x.toOption.bind f = some b) : ∃ a, x = .ok a ∧ f a = some b := by
  obtain ⟨a, ok, h⟩ := Option.bind_eq_some_iff.mp h
  exact ⟨a, eq_ok_of_toOption ok, h⟩

theorem exists_ok_of_map {ε α β : Type} {x : Except ε α} {f : α → β} {b : β}
    (h : x.toOption.map f = some b) : ∃ a, x = .ok a ∧ f a = b := by
  obtain ⟨a, ok, h⟩ := Option.map_eq_some_iff.mp h
  exact ⟨a, eq_ok_of_toOption ok, h⟩

theorem result_parse {tokens : List Token} {collect : Bool} {program : Program} :
    (parse tokens collect).result = .ok program ↔ ∃ s env,
      Parse.outcome tokens collect = (.ok ((), s), env) ∧ env.errors = #[] ∧
        env.toProgram = program := by
  rw [result_parse_eq]
  rcases Parse.outcome tokens collect with ⟨_ | ⟨⟨⟩, s⟩, env⟩
  · simp only [Parse.found, reduceCtorEq, Prod.mk.injEq, false_and, exists_false, iff_false]
    cases env.errors.toList <;> simp
  · obtain ⟨errors, eq⟩ : ∃ errors, env.errors.toList = errors := ⟨_, rfl⟩
    simp only [Parse.found, eq, Prod.mk.injEq, Except.ok.injEq, true_and]
    cases errors with
    | nil =>
      have none : env.errors = #[] := by simpa using eq
      constructor
      · intro h
        cases h
        exact ⟨s, env, ⟨rfl, rfl⟩, none, rfl⟩
      · rintro ⟨_, _, ⟨rfl, rfl⟩, _, rfl⟩
        rfl
    | cons d ds =>
      simp only [reduceCtorEq, false_iff]
      rintro ⟨_, _, ⟨rfl, rfl⟩, none, _⟩
      simp [none] at eq

end LineBasic
