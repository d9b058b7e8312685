import LineBasic.Proofs.Token.Lines

/-!
What a statement reports, and the line of the text it stands on.
-/

namespace LineBasic

open List

open Parse (Env Jump)

variable {α β : Type} {line : Nat}

namespace Diagnostic

/-- A diagnostic of the statement with this number, at a place on this line of the text. -/
structure IsOf (d : Diagnostic) (number line : Nat) : Prop where
  number : d.line = some number
  place : ∃ p, d.position = some p ∧ p.line = line

/-- What is noted within a statement: a semantic fault that no jump has. -/
def IsNote (d : Diagnostic) : Prop :=
  ∃ fault, d.fault = .semantic fault ∧ fault.isJump = false

end Diagnostic

/-- What a statement on a line of the text does to the diagnostics. -/
structure Parse.Env.Notes (line : Nat) (env env' : Env) : Prop where
  number : env'.line = env.line
  jumps : env'.jumps = env.jumps
  numbers : env'.lines.map Prod.fst = env.lines.map Prod.fst
  errors : ∃ ds, env'.errors.toList = env.errors.toList ++ ds ∧
    ∀ d ∈ ds, d.IsOf env.line line ∧ d.IsNote

namespace Parse.Env

theorem Notes.of_eq {env env' : Env} (number : env'.line = env.line)
    (jumps : env'.jumps = env.jumps) (numbers : env'.lines.map Prod.fst = env.lines.map Prod.fst)
    (errors : env'.errors = env.errors) : Notes line env env' :=
  ⟨number, jumps, numbers, [], by simp [errors], by simp⟩

theorem Notes.refl (env : Env) : Notes line env env :=
  .of_eq rfl rfl rfl rfl

theorem Notes.trans {env₁ env₂ env₃ : Env} (first : Notes line env₁ env₂)
    (second : Notes line env₂ env₃) : Notes line env₁ env₃ := by
  obtain ⟨number, jumps, numbers, ds, errors, noted⟩ := first
  obtain ⟨number', jumps', numbers', ds', errors', noted'⟩ := second
  refine ⟨number'.trans number, jumps'.trans jumps, numbers'.trans numbers, ds ++ ds', ?_, ?_⟩
  · rw [errors', errors, append_assoc]
  · intro d mem
    rcases mem_append.mp mem with mem | mem
    · exact noted d mem
    · rw [← number]
      exact noted' d mem

theorem Calm.notes {env env' : Env} (h : env.Calm env') : Notes line env env' :=
  .of_eq h.line h.jumps h.numbers h.errors

theorem notes_updateCurrent (env : Env) (f : Block → Block) : Notes line env (env.updateCurrent f) :=
  (Plain.updateCurrent env f).notes

end Parse.Env

/-- How a check of a statement ends: a result is as it should be, and a failure is the statement's. -/
inductive Check.EndsOn (line : Nat) (good : α → Prop) (env : Env) : Except Diagnostic α × Env → Prop
  | done {a : α} {env' : Env} : good a → env.Notes line env' → EndsOn line good env (.ok a, env')
  | failed {d : Diagnostic} {env' : Env} : d.IsOf env.line line → env.Notes line env' →
      EndsOn line good env (.error d, env')

/-- Checks of which the first reports for the statement on a line of the text. -/
def Check.Concerns (line : Nat) ⦃α : Type⦄ (R : α → α → Prop) (check _ : Check α) : Prop :=
  ∀ env, EndsOn line (fun a => ∃ b, R a b) env (check.exec env)

namespace Check

theorem ends_report {d : Diagnostic} {env : Env} (isOf : d.IsOf env.line line) (note : d.IsNote) :
    EndsOn line (fun a => ∃ b, a = b) env ((report d).exec env) := by
  rw [exec_report]
  split
  next =>
    refine .done ⟨_, rfl⟩ ⟨rfl, rfl, rfl, [d], Array.toList_push, fun other mem => ?_⟩
    rw [mem_singleton.mp mem]
    exact ⟨isOf, note⟩
  next => exact .failed isOf (.refl env)

theorem Concerns.chain {R : α → α → Prop} {R' : β → β → Prop} {check check' : Check α}
    {next next' : α → Check β} (first : Concerns line R check check')
    (then_ : ∀ a b, R a b → Concerns line R' (next a) (next' b)) :
    Concerns line R' (check >>= next) (check' >>= next') := by
  intro env
  rw [exec_bind]
  have h := first env
  generalize check.exec env = result at h
  cases h with
  | failed isOf notes => exact .failed isOf notes
  | @done a env₁ related notes =>
    obtain ⟨b, related⟩ := related
    have h := then_ a b related env₁
    dsimp only
    generalize (next a).exec env₁ = result at h
    cases h with
    | done related notes' => exact .done related (notes.trans notes')
    | failed isOf notes' => exact .failed (notes.number ▸ isOf) (notes.trans notes')

end Check

/-- The second place of a stream is reached from the first by reading tokens of a statement's body. -/
structure TokenStream.Leads (s s' : TokenStream) : Prop where
  whole : s'.toList = s.toList
  past : ∃ used, s'.past = used ++ s.past ∧ ∀ token ∈ used, token.kind.announcesLine = false

namespace TokenStream.Leads

theorem refl (s : TokenStream) : s.Leads s :=
  ⟨rfl, [], rfl, by simp⟩

theorem trans {s₁ s₂ s₃ : TokenStream} (first : s₁.Leads s₂) (second : s₂.Leads s₃) :
    s₁.Leads s₃ := by
  obtain ⟨used, past, inside⟩ := first.past
  obtain ⟨used', past', inside'⟩ := second.past
  refine ⟨second.whole.trans first.whole, used' ++ used, ?_, forall_mem_append.mpr ⟨inside', inside⟩⟩
  rw [past', past, append_assoc]

theorem read {token : Token} (inside : token.kind.announcesLine = false) (past rest : List Token) :
    (⟨past, token :: rest⟩ : TokenStream).Leads ⟨token :: past, rest⟩ :=
  ⟨by simp [toList], [token], rfl, by simpa using inside⟩

end TokenStream.Leads

theorem OnLine.cons_iff {token : Token} {rest : List Token} : OnLine line (token :: rest) ↔
    token.position.line = line ∧ (token.isNewline = false → OnLine line rest) := by
  constructor
  · intro h
    cases h with
    | newline newline on => exact ⟨on, by simp [newline]⟩
    | inside _ on rest => exact ⟨on, fun _ => rest⟩
  · rintro ⟨on, rest⟩
    cases newline : token.isNewline with
    | true => exact .newline newline on
    | false => exact .inside newline on (rest newline)

/-- From a place on a line of the text up to which the stream leads, tokens are read on that line. -/
def Parse.KeepsTo (line : Nat) (start s s' : TokenStream) : Prop :=
  s' = s ∧ OnLine line s.rest ∧ start.Leads s

theorem Parse.KeepsTo.position {start s s' : TokenStream} (h : KeepsTo line start s s') :
    ∃ p, s.position? = some p ∧ p.line = line := by
  obtain ⟨past, rest⟩ := s
  cases rest with
  | nil => cases h.2.1
  | cons token rest => exact ⟨token.position, rfl, (OnLine.cons_iff.mp h.2.1).1⟩

namespace Parse

open Check

theorem exec_advance_bind {next : Token → Parse α} {token : Token} {past rest : List Token}
    {env : Env} : (advance >>= next).exec ⟨past, token :: rest⟩ env =
      (next token).exec ⟨token :: past, rest⟩ env := by
  rw [exec_bind]
  rfl

/-- Statements report on the line of the text that they stand on. -/
theorem along_concerns (start : TokenStream) :
    Along id (fun token token' => token' = token ∧ token.position.line = line) (Concerns line)
      (KeepsTo line start) where
  injective := Function.injective_id
  alike same := same.1 ▸ ⟨rfl, rfl⟩
  done related env := .done ⟨_, related⟩ (.refl env)
  chain := .chain
  read then_ env := then_ env env (.refl env) env
  update _ plain _ env := .done ⟨_, rfl⟩ (plain env).notes
  report on plain env := ends_report ⟨rfl, _, rfl, on.2⟩ ⟨_, rfl, plain⟩
  next := by
    rintro ⟨past, rest⟩ _ ⟨rfl, on, leads⟩
    cases rest with
    | nil => cases on
    | cons token rest =>
      obtain ⟨here, more⟩ := OnLine.cons_iff.mp on
      refine .inr ⟨_, _, token, _, _, _, rfl, rfl, ⟨rfl, here⟩, fun other => ⟨rfl, more ?_, ?_⟩⟩
      · exact (Bool.or_eq_false_iff.mp other).1
      · exact leads.trans (.read other past rest)
  length same := same.1 ▸ rfl
  alter _ calm _ env := .done ⟨_, rfl⟩ (calm env).notes
  fail on env := .failed ⟨rfl, _, rfl, on.2⟩ (.refl env)
  failHere keeps env := by
    obtain ⟨p, position, here⟩ := keeps.position
    exact .failed ⟨rfl, p, position, here⟩ (.refl env)
  reportHere keeps plain env := by
    obtain ⟨p, position, here⟩ := keeps.position
    exact ends_report ⟨rfl, p, position, here⟩ ⟨_, rfl, plain⟩

/-- The end of a statement: it is recorded, and its newline must follow. -/
def lineEnd (word : Token) : Parse Unit := do
  Check.record (.statement (← getThe Env).line word.text)
  if !(← accept (.separator .newline)) then
    failHere (.lineEndExpected word.text (← peekKind?))

theorem exec_lineEnd_cons (word token : Token) (past rest : List Token) (env : Env) : ∃ log,
    (lineEnd word).exec ⟨past, token :: rest⟩ env =
      if token.kind = .separator .newline then (.ok ((), ⟨token :: past, rest⟩), { env with log })
      else (.error ⟨.grammar (.lineEndExpected word.text token.kind), env.line, token.position⟩,
        { env with log }) := by
  let log := env.log.push (.statement env.line word.text)
  have recorded : (lineEnd word).exec ⟨past, token :: rest⟩ env =
      (accept (.separator .newline) >>= fun found => if !found then
        peekKind? >>= fun kind => failHere (.lineEndExpected word.text kind)
        else pure ()).exec ⟨past, token :: rest⟩ { env with log } := rfl
  refine ⟨log, ?_⟩
  rw [recorded, exec_bind]
  by_cases newline : token.kind = .separator .newline
  · have read : (accept (.separator .newline)).exec ⟨past, token :: rest⟩ { env with log } =
        (.ok (true, ⟨token :: past, rest⟩), { env with log }) :=
      yields_accept.mpr ⟨rfl, .inl ⟨rfl, token, rfl, rfl, newline⟩⟩
    rw [read, if_pos newline]
    rfl
  · have unread : (accept (.separator .newline)).exec ⟨past, token :: rest⟩ { env with log } =
        (.ok (false, ⟨past, token :: rest⟩), { env with log }) :=
      yields_accept.mpr ⟨rfl, .inr ⟨rfl, rfl, by simpa using newline⟩⟩
    rw [unread, if_neg newline]
    rfl

theorem statement_eq : statement = lineLabel >>= fun _ => advance >>= fun word =>
    statementBody word >>= fun _ => lineEnd word :=
  rfl

end Parse

end LineBasic
