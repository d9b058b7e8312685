import LineBasic.Proofs.Parse.Reports
import Mathlib.Logic.Embedding.Basic

/-!
Parsing a text whose lines are renumbered, for parses that stop at the first fault.
-/

namespace LineBasic

open List

open Parse (Env Block OpenBlock Opening Jump)

variable {α β : Type} {ρ : Nat ↪ Nat}

namespace Parse

/-- Jumps out of the same blocks, the second one to the renumbered line. -/
structure Jump.Alike (ρ : Nat → Nat) (jump jump' : Jump) : Prop where
  target : jump'.target = ρ jump.target
  scopes : jump'.scopes = jump.scopes

/-- Both parses stop at the first fault, and none has been found. -/
structure Env.Unfailing (ρ : Nat → Nat) (env env' : Env) : Prop where
  strict : env.collect = false
  strict' : env'.collect = false
  jumps : Forall₂ (Jump.Alike ρ) env.jumps.toList env'.jumps.toList
  errors : env'.errors = env.errors

/-- States between two statements of which none has failed. -/
structure Env.Between (ρ : Nat → Nat) (env env' : Env) : Prop extends env.Near ρ env', env.Unfailing ρ env'

theorem Env.Unfailing.calm {env env' env₁ env₁' : Env} (h : env.Unfailing ρ env') (calm : env.Calm env₁)
    (calm' : env'.Calm env₁') : env₁.Unfailing ρ env₁' :=
  ⟨calm.collect.trans h.strict, calm'.collect.trans h.strict', by rw [calm.jumps, calm'.jumps]; exact h.jumps,
    by rw [calm.errors, calm'.errors, h.errors]⟩

end Parse

/-- How two checks end: both fail, or both succeed with related results and states. -/
inductive Check.Ends (ρ : Nat → Nat) (R : α → α → Prop) :
    Except Diagnostic α × Env → Except Diagnostic α × Env → Prop
  | ok {a b : α} {env env' : Env} : R a b → env.Like ρ env' → env.Unfailing ρ env' →
      Ends ρ R (.ok a, env) (.ok b, env')
  | error {d d' : Diagnostic} {env env' : Env} : Ends ρ R (.error d, env) (.error d', env')

/-- Checks that end alike when the second one is made with renumbered lines. -/
def Check.Twin (ρ : Nat → Nat) ⦃α : Type⦄ (R : α → α → Prop) (check check' : Check α) : Prop :=
  ∀ env env', env.Like ρ env' → env.Unfailing ρ env' → Ends ρ R (check.exec env) (check'.exec env')

namespace Check

theorem Twin.chain {R : α → α → Prop} {R' : β → β → Prop} {check check' : Check α}
    {next next' : α → Check β} (first : Twin ρ R check check')
    (then_ : ∀ a b, R a b → Twin ρ R' (next a) (next' b)) :
    Twin ρ R' (check >>= next) (check' >>= next') := by
  intro env env' like unfailing
  rw [exec_bind, exec_bind]
  have h := first env env' like unfailing
  generalize check.exec env = result, check'.exec env' = result' at h
  cases h with
  | ok related like unfailing => exact then_ _ _ related _ _ like unfailing
  | error => exact .error

theorem twin_report {R : Unit → Unit → Prop} {f f' : Env → Diagnostic} :
    Twin ρ R (get >>= fun env => report (f env)) (get >>= fun env => report (f' env)) := by
  intro env env' _ unfailing
  rw [exec_bind, exec_bind, exec_get, exec_get]
  dsimp only
  rw [exec_report, exec_report, unfailing.strict, unfailing.strict']
  exact .error

end Check

namespace Parse

/-- Places of streams from which no line is named. -/
abbrev Unnamed (ρ : Nat → Nat) (s s' : TokenStream) : Prop :=
  Renumbered ρ false s.rest s'.rest

theorem length_eq {named : Bool} {s s' : TokenStream} (same : Renumbered ρ named s.rest s'.rest) :
    s'.rest.length = s.rest.length := by
  have kinds := congrArg List.length same.kinds
  rwa [length_map, length_map] at kinds

theorem along_twin : Along ρ Token.Alike (Check.Twin ρ) (Unnamed ρ) where
  injective := ρ.injective
  alike same := same
  done related _ _ like unfailing := .ok related like unfailing
  chain := .chain
  read then_ env env' like unfailing := then_ env env' like env env' like unfailing
  update related plain plain' env env' like unfailing := .ok (related env env' like).1
    (related env env' like).2 (unfailing.calm (plain env).toCalm (plain' env').toCalm)
  report _ _ := Check.twin_report
  next := by
    rintro ⟨past, rest⟩ ⟨past', rest'⟩ same
    change Renumbered ρ false rest rest' at same
    cases same with
    | nil => exact .inl ⟨_, _, rfl, rfl⟩
    | @cons _ token token' _ _ kind text same =>
      refine .inr ⟨_, _, token, token', _, _, rfl, rfl, ⟨kind, text⟩, fun other => ?_⟩
      rw [other] at same
      exact same
  length := length_eq
  alter related calm calm' env env' like unfailing :=
    .ok rfl (related env env' like) (unfailing.calm (calm env) (calm' env'))
  fail _ _ _ _ _ := .error
  failHere _ _ _ _ _ := .error
  reportHere _ _ := Check.twin_report

/-- How two parses come to the end of a statement: both fail, or both go on with a new line. -/
inductive NearEnds (ρ : Nat → Nat) : Except Diagnostic (Unit × TokenStream) × Env →
    Except Diagnostic (Unit × TokenStream) × Env → Prop
  | ok {s s' : TokenStream} {env env' : Env} : Renumbered ρ true s.rest s'.rest → env.Between ρ env' →
      NearEnds ρ (.ok ((), s), env) (.ok ((), s'), env')
  | error {d d' : Diagnostic} {env env' : Env} : NearEnds ρ (.error d, env) (.error d', env')

/-- Parsers that end alike between two statements. -/
def Follows (ρ : Nat → Nat) (parser parser' : Parse Unit) : Prop :=
  ∀ s s' env env', Renumbered ρ true s.rest s'.rest → env.Between ρ env' →
    NearEnds ρ (parser.exec s env) (parser'.exec s' env')

namespace Follows

variable {parser parser' : Parse Unit}

theorem pure : Follows ρ (pure ()) (pure ()) :=
  fun _ _ _ _ same near => .ok same near

theorem bind {next next' : Unit → Parse Unit} (first : Follows ρ parser parser')
    (then_ : Follows ρ (next ()) (next' ())) : Follows ρ (parser >>= next) (parser' >>= next') := by
  intro s s' env env' same near
  rw [exec_bind, exec_bind]
  have h := first s s' env env' same near
  generalize parser.exec s env = result, parser'.exec s' env' = result' at h
  cases h with
  | ok same near => exact then_ _ _ _ _ same near
  | error => exact .error

theorem getThe_bind {next next' : Env → Parse Unit}
    (then_ : ∀ env env', env.Between ρ env' → Follows ρ (next env) (next' env')) :
    Follows ρ (getThe Env >>= next) (getThe Env >>= next') := by
  intro s s' env env' same near
  rw [exec_bind, exec_bind, exec_getThe, exec_getThe]
  exact then_ env env' near s s' env env' same near

theorem report (d d' : Diagnostic) : Follows ρ (liftM (Check.report d)) (liftM (Check.report d')) := by
  intro s s' env env' _ near
  rw [exec_lift, exec_lift, Check.exec_report, Check.exec_report, near.strict, near.strict']
  exact .error

theorem record (event event' : Event) :
    Follows ρ (liftM (Check.record event)) (liftM (Check.record event')) :=
  fun _ _ _ _ same near => .ok same { near with }

end Follows

theorem follows_checkClosed : Follows ρ checkClosed checkClosed := by
  refine .getThe_bind fun env env' near => ?_
  rw [near.blocks, getLast?_map]
  cases env.blocks.getLast? with
  | none => exact .pure
  | some outermost => exact fun _ _ _ _ _ _ => .error

theorem beq_renumber (m n : Nat) : (ρ m == ρ n) = (m == n) :=
  Bool.eq_iff_iff.mpr (by simp)

theorem lookup_renumber {number : Nat} (lines : List (Nat × Option Nat)) :
    (lines.map (Prod.map ρ id)).lookup (ρ number) = lines.lookup number := by
  induction lines with
  | nil => rfl
  | cons line lines ih =>
    obtain ⟨other, block⟩ := line
    rw [map_cons, Prod.map_apply, lookup_cons, lookup_cons, ih, beq_renumber]
    rfl

theorem follows_checkJump {jump jump' : Jump} (alike : jump.Alike ρ jump') :
    Follows ρ (checkJump jump) (checkJump jump') := by
  refine .getThe_bind fun env env' near => ?_
  rw [near.lines, alike.target, lookup_renumber]
  cases env.lines.lookup jump.target with
  | none => exact .report _ _
  | some found =>
    cases found with
    | none => exact .report _ _
    | some block =>
      dsimp only
      rw [alike.scopes]
      split
      next => exact .pure
      next =>
        split
        next => exact .record _ _
        next => exact .report _ _

theorem follows_checkJumps {jumps jumps' : List Jump} (alike : Forall₂ (Jump.Alike ρ) jumps jumps') :
    Follows ρ (jumps.forM checkJump) (jumps'.forM checkJump) := by
  induction alike with
  | nil => exact .pure
  | cons first _ ih => exact .bind (follows_checkJump first) ih

theorem lineEnd_ends (word word' : Token) {s s' : TokenStream} {env env' : Env}
    (same : Renumbered ρ false s.rest s'.rest) (near : env.Between ρ env') :
    NearEnds ρ ((lineEnd word).exec s env) ((lineEnd word').exec s' env') := by
  obtain ⟨past, rest⟩ := s
  obtain ⟨past', rest'⟩ := s'
  cases same with
  | nil => exact .error
  | @cons _ token token' _ _ kind text same =>
    obtain ⟨log, eq⟩ := exec_lineEnd_cons word token past _ env
    obtain ⟨log', eq'⟩ := exec_lineEnd_cons word' token' past' _ env'
    rw [eq, eq', kind]
    split
    next newline =>
      rw [newline] at same
      exact .ok same { near with }
    next => exact .error

section Numbers

variable (small : ∀ n, ρ n < 0x100000000 ↔ n < 0x100000000)

include small

/-- The number that names a line, renumbered. It counts in 32 bits as before. -/
theorem number_renumbered {token token' : Token} (isInteger : token.kind = .literal .integer)
    (text : token'.text = token.renumbered ρ true) :
    (Text.natural? token'.text.toList).filter (· < 0x100000000) =
      ((Text.natural? token.text.toList).filter (· < 0x100000000)).map ρ := by
  rw [text, Token.renumbered, if_pos (by rw [isInteger]; rfl)]
  cases found : Text.natural? token.text.toList with
  | none =>
    rw [Option.elim_none, found]
    rfl
  | some number =>
    rw [Option.elim_some, Text.natural?_toString]
    rw [Option.filter_some, Option.filter_some]
    simp only [decide_eq_true_eq, small]
    split <;> rfl

theorem twin_gotoStatement {s s' : TokenStream} (same : Renumbered ρ true s.rest s'.rest) :
    Check.Twin ρ (fun read read' => read.1 = read'.1 ∧ Unnamed ρ read.2 read'.2) (gotoStatement.run s)
      (gotoStatement.run s') := by
  obtain ⟨past, rest⟩ := s
  obtain ⟨past', rest'⟩ := s'
  intro env env' like unfailing
  show Check.Ends ρ _ (gotoStatement.exec _ env) (gotoStatement.exec _ env')
  unfold gotoStatement
  have w : Along ρ Token.Alike (Check.Twin ρ) (Unnamed ρ) := along_twin
  rw [exec_bind, exec_bind]
  cases same with
  | nil => exact .error
  | @cons _ token token' _ _ kind text same =>
    by_cases isInteger : token.kind = .literal .integer
    · rw [exec_expect_cons isInteger, exec_expect_cons (kind.trans isInteger)]
      rw [isInteger] at same
      have number : Side (Check.Twin ρ) (Unnamed ρ) (Maps ρ) (lineNumber token) (lineNumber token') := by
        unfold lineNumber
        rw [number_renumbered small isInteger text]
        cases (Text.natural? token.text.toList).filter (· < 0x100000000) with
        | none => exact fun _ _ _ _ _ _ _ => .error
        | some number => exact w.ret rfl
      refine w.into number (fun target => ?_) ⟨token :: past, _⟩ ⟨token' :: past', _⟩ same env env'
        like unfailing
      refine w.into (w.lift (Check.along_node w.toAlong (.goto target) []))
        fun node => w.same (w.lift (Check.along_attach w.toAlong node)) fun _ => ?_
      intro s s' same env env' like unfailing
      refine .ok ⟨rfl, same⟩ { like with } { unfailing with jumps := ?_ }
      dsimp only
      rw [Array.toList_push, Array.toList_push]
      exact rel_append unfailing.jumps (.cons ⟨rfl, like.scopes⟩ .nil)
    · unfold expect
      rw [exec_bind, exec_bind, exec_get, exec_get]
      simp only [TokenStream.consume, if_neg isInteger, kind]
      exact .error

theorem twin_statementBody {token token' : Token} (alike : token.Alike token') {s s' : TokenStream}
    (same : Renumbered ρ token.kind.announcesLine s.rest s'.rest) :
    Check.Twin ρ (fun read read' => read.1 = read'.1 ∧ Unnamed ρ read.2 read'.2)
      ((statementBody token).run s) ((statementBody token').run s') := by
  by_cases jumps : token.kind = .keyword .GOTO
  · unfold statementBody
    rw [alike.kind, jumps]
    rw [jumps] at same
    exact twin_gotoStatement small same
  by_cases newline : token.kind = .separator .newline
  · unfold statementBody
    rw [alike.kind, newline]
    exact fun _ _ _ _ => .error
  · have other : token.kind.announcesLine = false := by simp [TokenKind.announcesLine, jumps, newline]
    rw [other] at same
    exact along_statementBody along_twin alike jumps s s' same

theorem lineLabel_ends {s s' : TokenStream} {env env' : Env}
    (same : Renumbered ρ true s.rest s'.rest) (near : env.Between ρ env') :
    Check.Ends ρ (fun read read' => read.1 = read'.1 ∧ Unnamed ρ read.2 read'.2) (lineLabel.exec s env)
      (lineLabel.exec s' env') := by
  obtain ⟨past, rest⟩ := s
  obtain ⟨past', rest'⟩ := s'
  cases same with
  | nil => exact .error
  | @cons _ token token' _ _ kind text same =>
    unfold lineLabel
    rw [exec_advance_bind, exec_advance_bind, kind]
    by_cases isInteger : token.kind = .literal .integer
    · rw [if_neg (not_not.mpr isInteger), if_neg (not_not.mpr isInteger), lineNumber, lineNumber,
        number_renumbered small isInteger text]
      rw [isInteger] at same
      cases (Text.natural? token.text.toList).filter (· < 0x100000000) with
      | none => exact .error
      | some number =>
        have seen : (env'.lines.any fun line => line.1 == ρ number) =
            env.lines.any fun line => line.1 == number := by
          rw [near.lines, any_map]
          exact congrArg env.lines.any (funext fun line => beq_renumber line.1 number)
        show Check.Ends ρ _ (exec (if env.lines.any fun line => line.1 == number then _ else _) _ env)
          (exec (if env'.lines.any fun line => line.1 == ρ number then _ else _) _ env')
        rw [seen]
        split
        next => exact .error
        next =>
          refine .ok ⟨rfl, same⟩ { near with lines := ?_, line := rfl } { near with }
          exact congrArg ((ρ number, none) :: ·) near.lines
    · rw [if_pos isInteger, if_pos isInteger]
      exact .error

theorem follows_statement : Follows ρ statement statement := by
  intro s s' env env' same near
  rw [statement_eq, exec_bind, exec_bind]
  have labelled := lineLabel_ends small same near
  generalize lineLabel.exec s env = result, lineLabel.exec s' env' = result' at labelled
  cases labelled with
  | error => exact .error
  | @ok read read' env env' related like unfailing =>
    obtain ⟨_, past, rest⟩ := read
    obtain ⟨_, past', rest'⟩ := read'
    obtain ⟨-, same⟩ := related
    dsimp only at same ⊢
    cases same with
    | nil => exact .error
    | @cons _ word word' rest rest' kind text same =>
      rw [exec_advance_bind, exec_advance_bind, exec_bind, exec_bind]
      have body : Check.Ends ρ _ ((statementBody word).exec ⟨word :: past, rest⟩ env)
          ((statementBody word').exec ⟨word' :: past', rest'⟩ env') :=
        twin_statementBody small ⟨kind, text⟩ same _ _ like unfailing
      generalize (statementBody word).exec ⟨word :: past, rest⟩ env = result,
        (statementBody word').exec ⟨word' :: past', rest'⟩ env' = result' at body
      cases body with
      | error => exact .error
      | ok related like unfailing => exact lineEnd_ends _ _ related.2 { like, unfailing with }

theorem follows_statements (bound : Nat) : Follows ρ (statements bound) (statements bound) := by
  induction bound with
  | zero => exact .pure
  | succ bound ih =>
    intro s s' env env' same near
    have ends : s'.atEnd = s.atEnd := by
      rw [TokenStream.atEnd, TokenStream.atEnd, ← isEmpty_map, same.kinds, isEmpty_map]
    rw [statements, exec_bind, exec_bind, exec_get, exec_get]
    dsimp only
    rw [ends]
    split
    next => exact .ok same near
    next => exact Follows.bind (follows_statement small) ih s s' env env' same near

theorem follows_program : Follows ρ program program := by
  intro s s' env env' same near
  rw [program, exec_bind, exec_bind, exec_get, exec_get]
  dsimp only
  rw [length_eq same]
  have rest : Follows ρ (do
      statements s.rest.length
      checkClosed
      (← getThe Env).jumps.toList.forM checkJump)
      (do
        statements s.rest.length
        checkClosed
        (← getThe Env).jumps.toList.forM checkJump) :=
    .bind (follows_statements small _) <| .bind follows_checkClosed <| .getThe_bind fun _ _ near =>
      follows_checkJumps near.jumps
  exact rest s s' env env' same near

end Numbers

end Parse

theorem Parse.Env.Near.toProgram {env env' : Env} (near : env.Near ρ env') :
    env'.toProgram = env.toProgram.renumber ρ := by
  rw [Env.toProgram, near.program, near.size, near.symbols, near.strings, Block.renumber,
    Array.toList_map]
  rfl

theorem matched_parse_strict (small : ∀ n, ρ n < 0x100000000 ↔ n < 0x100000000)
    {tokens tokens' : List Token} (same : Renumbered ρ true tokens tokens') :
    Matched (Maps (Program.renumber ρ)) (parse tokens false).result (parse tokens' false).result := by
  have start : ({ collect := false } : Env).Between ρ { collect := false } :=
    { strict := rfl, strict' := rfl, size := rfl, symbols := rfl, strings := rfl
      program := by rw [Block.renumber, Array.map_empty]
      blocks := rfl, lines := rfl, jumps := .nil, errors := rfl }
  have ends : Parse.NearEnds ρ (Parse.outcome tokens false) (Parse.outcome tokens' false) :=
    Parse.follows_program small (.ofTokens tokens) (.ofTokens tokens') _ _ same start
  rw [result_parse_eq, result_parse_eq]
  generalize Parse.outcome tokens false = result, Parse.outcome tokens' false = result' at ends ⊢
  cases ends with
  | @error d d' env env' =>
    dsimp only [Parse.found]
    cases env.errors.toList <;> cases env'.errors.toList <;> exact .error
  | @ok s s' env env' _ near =>
    dsimp only [Parse.found]
    rw [near.errors, near.toProgram]
    cases env.errors.toList with
    | nil => exact .ok rfl
    | cons => exact .error

/-- Both parses fail, or both succeed and the second program is the first one renumbered. -/
theorem matched_parse (small : ∀ n, ρ n < 0x100000000 ↔ n < 0x100000000) {tokens tokens' : List Token}
    (same : Renumbered ρ true tokens tokens') (collect : Bool) :
    Matched (Maps (Program.renumber ρ)) (parse tokens collect).result
      (parse tokens' collect).result := by
  have strict := matched_parse_strict small same
  cases collect with
  | false => exact strict
  | true =>
    rcases parse_agree tokens with ⟨program, fast, full⟩ | ⟨d, others, fast, full⟩ <;>
      rcases parse_agree tokens' with ⟨program', fast', full'⟩ | ⟨d', others', fast', full'⟩ <;>
      rw [fast, fast'] at strict <;> rw [full, full']
    · exact strict
    · cases strict
    · cases strict
    · exact .error

end LineBasic
