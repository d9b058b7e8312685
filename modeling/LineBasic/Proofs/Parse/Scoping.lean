import LineBasic.Proofs.Parse.Grammar
import LineBasic.Proofs.Text.Lines
import LineBasic.Proofs.Tree.Nodes

/-!
Which variable a name stands for, told by the tokens of the lines.
-/

namespace LineBasic

open List

def Token.name? (token : Token) : Option String :=
  if token.kind = .identifier then some token.text else none

def Token.isLiteral (token : Token) : Bool :=
  token.kind matches .literal _

def namesIn (tokens : List Token) : List String :=
  tokens.filterMap Token.name?

/-- What a statement does with names: a variable is read, a variable is written after others have
been read, an array is declared, a scope is opened or closed. -/
inductive NameAction where
  | use (name : String)
  | write (name : String) (reads : List String)
  | declare (name : String)
  | enter
  | leave
deriving DecidableEq

namespace NameAction

def uses (tokens : List Token) : List NameAction :=
  (namesIn tokens).map use

/-- A variable is written, once the other names beside it have been read. -/
def writes : List Token → List NameAction
  | [] => []
  | name :: rest => [write name.text (namesIn rest)]

/-- A variable is written after each comma. -/
def targets : List Token → List NameAction
  | [] => []
  | token :: rest =>
    if token.kind = .separator .comma then
      writes (rest.takeWhile fun other => other.kind ≠ .separator .comma) ++ targets rest
    else
      targets rest

/-- An array is declared, and it is referred to once for each value in braces. -/
def declares : List Token → List NameAction
  | [] => []
  | name :: rest =>
    let values := rest.dropWhile fun token => token.kind ≠ .separator .leftBrace
    declare name.text :: List.replicate (values.countP Token.isLiteral) (use name.text)

/-- What a statement does with names, in the order in which it does so. -/
def ofStatement : List Token → List NameAction
  | [] => []
  | first :: rest =>
    let isTo (token : Token) : Bool := token.kind = .keyword .TO
    match first.kind with
    | .identifier => writes (first :: rest)
    | .keyword .LET => writes rest
    | .keyword .DIM => declares rest
    | .keyword .FOR =>
      writes (rest.takeWhile fun token => !isTo token) ++
        uses (rest.dropWhile fun token => !isTo token) ++ [enter]
    | .keyword .IF => uses rest ++ [enter]
    | .keyword .ELSE => [leave, enter]
    | .keyword .END => [leave]
    | .keyword .PRINT | .keyword .PRINTLN => uses rest
    | .keyword .READ => targets rest
    | _ => []

end NameAction

/-- Variables and scopes while a source is read. `vars` are the names of the variables with the
scopes that own them, in the order of their declarations; `opened` are the open scopes, innermost
first; `fresh` are the scopes that are still to be opened. `mentions` tells which variables have been
referred to and which scopes have been opened so far. -/
structure Scoping where
  vars : List (String × Nat) := []
  opened : List Nat := []
  fresh : List Nat
  mentions : List Mention := []
deriving DecidableEq

namespace Scoping

/-- The variable of this name in a scope. -/
def lookup? (scoping : Scoping) (name : String) (scope : Nat) : Option Nat :=
  scoping.vars.findIdx? fun entry => entry == (name, scope)

/-- The variable that a name stands for: that of the innermost scope that knows the name. -/
def find? (scoping : Scoping) (name : String) : Option Nat :=
  scoping.opened.findSome? (scoping.lookup? name)

/-- Variables are referred to on a line. -/
def refer (scoping : Scoping) (line : Nat) (numbers : List Nat) : Scoping :=
  { scoping with mentions := scoping.mentions ++ numbers.map (.refer line) }

def declare (scoping : Scoping) (name : String) : Option Scoping :=
  scoping.opened.head?.map fun scope => { scoping with vars := scoping.vars ++ [(name, scope)] }

def enter (scoping : Scoping) : Option Scoping :=
  match scoping.fresh with
  | [] => none
  | scope :: fresh => some { scoping with
      opened := scope :: scoping.opened
      fresh
      mentions := scoping.mentions ++ [.scope scope] }

def leave (scoping : Scoping) : Option Scoping :=
  match scoping.opened with
  | [] => none
  | _ :: outer => some { scoping with opened := outer }

/-- The scopes after an action. A name that is read must be known, one that is written is declared
unless it is known, and an array is declared under a name that its scope does not know. -/
def act (scoping : Scoping) (line : Nat) : NameAction → Option Scoping
  | .use name => (scoping.find? name).map fun number => scoping.refer line [number]
  | .write name reads => do
    let numbers ← reads.mapM scoping.find?
    match scoping.find? name with
    | some number => return scoping.refer line (number :: numbers)
    | none =>
      let declared ← scoping.declare name
      return declared.refer line (scoping.vars.length :: numbers)
  | .declare name => do
    let scope ← scoping.opened.head?
    if (scoping.lookup? name scope).isSome then none else scoping.declare name
  | .enter => scoping.enter
  | .leave => scoping.leave

/-- The scopes after a line, which starts with its number. -/
def line (scoping : Scoping) : List Token → Option Scoping
  | [] => some scoping
  | label :: body => do
    let number ← Text.natural? label.text.toList
    (NameAction.ofStatement body).foldlM (fun scoping action => scoping.act number action) scoping

/-- The scopes after all lines, the first of the given ones being that of the program. -/
def run (scopes : List Nat) (tokens : List Token) : Option Scoping := do
  let start ← enter { fresh := scopes }
  (Text.pieces Token.isNewline tokens).foldlM line start

/-- All that an action can do: variables are referred to, after one has been declared in the
innermost scope perhaps, or a scope is opened or closed. -/
inductive Step (line : Nat) : Scoping → Scoping → Prop
  | refer (scoping : Scoping) (numbers : List Nat) : Step line scoping (scoping.refer line numbers)
  | declare {vars : List (String × Nat)} {scope : Nat} {outer fresh : List Nat}
      {mentions : List Mention} {name : String} (numbers : List Nat) :
      (name, scope) ∉ vars →
      Step line ⟨vars, scope :: outer, fresh, mentions⟩
        ⟨vars ++ [(name, scope)], scope :: outer, fresh, mentions ++ numbers.map (.refer line)⟩
  | enter (vars : List (String × Nat)) (opened : List Nat) (scope : Nat) (fresh : List Nat)
      (mentions : List Mention) :
      Step line ⟨vars, opened, scope :: fresh, mentions⟩
        ⟨vars, scope :: opened, fresh, mentions ++ [.scope scope]⟩
  | leave (vars : List (String × Nat)) (scope : Nat) (outer fresh : List Nat)
      (mentions : List Mention) :
      Step line ⟨vars, scope :: outer, fresh, mentions⟩ ⟨vars, outer, fresh, mentions⟩

/-- Each scope is mentioned once it is opened, and no scope has two variables of one name. -/
structure Accounts (scopes : List Nat) (scoping : Scoping) : Prop where
  scopes : scoping.mentions.filterMap Mention.scope? ++ scoping.fresh = scopes
  nodup : scoping.vars.Nodup

section Steps

variable {scoping scoping' : Scoping} {number : Nat} {action : NameAction} {scopes : List Nat}

theorem not_mem_of_lookup? {name : String} {scope : Nat} (h : scoping.lookup? name scope = none) :
    (name, scope) ∉ scoping.vars := by
  intro mem
  simpa using findIdx?_eq_none_iff.mp h _ mem

theorem step_of_enter (h : scoping.enter = some scoping') : scoping.Step number scoping' := by
  obtain ⟨vars, opened, fresh, mentions⟩ := scoping
  cases fresh with
  | nil => cases h
  | cons scope fresh =>
    cases h
    exact .enter ..

theorem step_of_leave (h : scoping.leave = some scoping') : scoping.Step number scoping' := by
  obtain ⟨vars, opened, fresh, mentions⟩ := scoping
  cases opened with
  | nil => cases h
  | cons scope outer =>
    cases h
    exact .leave ..

theorem step_of_declare {name : String} {declared : Scoping} (numbers : List Nat)
    (absent : ∀ scope, scoping.opened.head? = some scope → scoping.lookup? name scope = none)
    (h : scoping.declare name = some declared) :
    scoping.Step number (declared.refer number numbers) := by
  obtain ⟨vars, opened, fresh, mentions⟩ := scoping
  cases opened with
  | nil => cases h
  | cons scope outer =>
    cases h
    exact .declare numbers (not_mem_of_lookup? (absent scope rfl))

theorem step_of_act (h : scoping.act number action = some scoping') :
    scoping.Step number scoping' := by
  cases action with
  | use name =>
    obtain ⟨found, _, rfl⟩ := Option.map_eq_some_iff.mp h
    exact .refer scoping [found]
  | write name reads =>
    obtain ⟨numbers, _, h⟩ := Option.bind_eq_some_iff.mp h
    cases found : scoping.find? name with
    | some target =>
      simp only [found] at h
      cases h
      exact .refer scoping (target :: numbers)
    | none =>
      simp only [found] at h
      obtain ⟨declared, isDeclared, h⟩ := Option.bind_eq_some_iff.mp h
      cases h
      refine step_of_declare _ (fun scope first => ?_) isDeclared
      exact findSome?_eq_none_iff.mp found scope (mem_of_head? first)
  | declare name =>
    obtain ⟨scope, first, h⟩ := Option.bind_eq_some_iff.mp h
    split at h
    next => cases h
    next absent =>
      have step := @step_of_declare scoping number name scoping' [] (fun scope' first' => by
        cases first.symm.trans first'
        simpa using absent) h
      simpa [refer] using step
  | enter => exact step_of_enter h
  | leave => exact step_of_leave h

theorem Step.accounts (h : scoping.Step number scoping') (accounts : scoping.Accounts scopes) :
    scoping'.Accounts scopes := by
  have silent (numbers : List Nat) :
      (numbers.map (Mention.refer number)).filterMap Mention.scope? = [] := by
    simp [filterMap_eq_nil_iff, Mention.scope?]
  cases h with
  | refer scoping numbers =>
    refine ⟨?_, accounts.nodup⟩
    simpa [Scoping.refer, filterMap_append, silent] using accounts.scopes
  | declare numbers absent =>
    refine ⟨by simpa [filterMap_append, silent] using accounts.scopes, ?_⟩
    refine nodup_append.mpr ⟨accounts.nodup, nodup_singleton _, ?_⟩
    rintro entry mem other last rfl
    exact absent (mem_singleton.mp last ▸ mem)
  | enter vars opened scope fresh mentions =>
    refine ⟨?_, accounts.nodup⟩
    simpa [filterMap_append, Mention.scope?] using accounts.scopes
  | leave => exact ⟨accounts.scopes, accounts.nodup⟩

theorem accounts_of_foldlM {actions : List NameAction}
    (h : actions.foldlM (fun scoping action => scoping.act number action) scoping = some scoping')
    (accounts : scoping.Accounts scopes) : scoping'.Accounts scopes := by
  induction actions generalizing scoping with
  | nil =>
    cases h
    exact accounts
  | cons action actions ih =>
    rw [foldlM_cons] at h
    obtain ⟨scoping₁, first, rest⟩ := Option.bind_eq_some_iff.mp h
    exact ih rest ((step_of_act first).accounts accounts)

theorem accounts_of_line {tokens : List Token} (h : scoping.line tokens = some scoping')
    (accounts : scoping.Accounts scopes) : scoping'.Accounts scopes := by
  cases tokens with
  | nil =>
    cases h
    exact accounts
  | cons label body =>
    obtain ⟨number, _, acts⟩ := Option.bind_eq_some_iff.mp h
    exact accounts_of_foldlM acts accounts

theorem accounts_of_lines {lines : List (List Token)}
    (h : lines.foldlM Scoping.line scoping = some scoping') (accounts : scoping.Accounts scopes) :
    scoping'.Accounts scopes := by
  induction lines generalizing scoping with
  | nil =>
    cases h
    exact accounts
  | cons line lines ih =>
    rw [foldlM_cons] at h
    obtain ⟨scoping₁, first, rest⟩ := Option.bind_eq_some_iff.mp h
    exact ih rest (accounts_of_line first accounts)

/-- The scopes that are opened in the end are those that were given. -/
theorem accounts_of_run {tokens : List Token} (h : run scopes tokens = some scoping) :
    scoping.Accounts scopes := by
  obtain ⟨start, first, rest⟩ := Option.bind_eq_some_iff.mp h
  have none : ({ fresh := scopes } : Scoping).Accounts scopes := ⟨rfl, nodup_nil⟩
  exact accounts_of_lines rest ((@step_of_enter _ _ 0 first).accounts none)

end Steps

end Scoping

end LineBasic
