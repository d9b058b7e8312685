import LineBasic.Proofs.Parse.Diagnostics

/-!
The check of the jumps, once all lines of a program are known.
-/

namespace LineBasic

open List Node
open Parse (Env Jump)

/-- The numbers of the lines of a text, which are the first tokens on their lines. -/
def lineNumbers (tokens : List Token) : List Nat :=
  tokens.filterMap fun token =>
    if tokens.find? (fun other => other.position.line == token.position.line) = some token then
      Text.natural? token.text.toList
    else
      none

/-- What is wrong with a jump from inside some scopes, if anything. It leads where it should if the
target is the line of a statement directly in one of the scopes. -/
def jumpFault? (numbers : List Nat) (statements : List Site) (scopes : List Nat) (target : Nat) :
    Option SemanticFault :=
  if ∃ x ∈ statements, x.line = target ∧ ∃ block ∈ scopes, x.scopes.head? = some block then none
  else if target ∉ numbers then some (.targetMissing target)
  else if ∀ x ∈ statements, x.line ≠ target then some (.targetNotExecutable target)
  else some (.targetNested target)

/-- A jump to a line with a statement directly in a scope strictly around that of the jump. -/
def LeavesScope (statements : List Site) (scopes : List Nat) (target : Nat) : Prop :=
  ∃ x ∈ statements, x.line = target ∧ x.scopes.head? ≠ scopes.head? ∧
    ∃ block ∈ scopes, x.scopes.head? = some block

instance (statements : List Site) (scopes : List Nat) (target : Nat) :
    Decidable (LeavesScope statements scopes target) :=
  inferInstanceAs (Decidable (∃ _ ∈ _, _))

namespace Parse

variable {s s' : TokenStream} {env env' : Env}

namespace Env

section Closed

theorem sites_of_closed (closed : env.blocks = []) :
    sitesAll [env.tree.id] none env.tree.children = env.sites := by
  simp [tree, sites, closed, plug, stackSites]

theorem head?_scopes_of_closed (closed : env.blocks = []) {x : Site} (mem : x ∈ env.sites) :
    ∃ block, x.scopes.head? = some block := by
  rw [sites, closed] at mem
  obtain ⟨_, _, places⟩ := places_of_mem_sitesAll _ mem
  obtain ⟨more, eq, _⟩ := places.scopes_eq
  rw [eq]
  cases more <;> simp

variable (books : env.Books) (closed : env.blocks = [])
include books closed

theorem Books.lookup_eq (line : Nat) :
    (env.lines.lookup line = none ∧ line ∉ env.lines.map Prod.fst ∧ ∀ x ∈ env.sites, x.line ≠ line) ∨
      (env.lines.lookup line = some none ∧ line ∈ env.lines.map Prod.fst ∧
        ∀ x ∈ env.sites, x.line ≠ line) ∨
      ∃ block, env.lines.lookup line = some (some block) ∧ (∃ x ∈ env.sites, x.line = line) ∧
        ∀ x ∈ env.sites, x.line = line → x.scopes.head? = some block := by
  have marked {x : Site} (mem : x ∈ env.sites) : env.lines.lookup x.line = some x.scopes.head? :=
    lookup_of_mem books.distinct (books.marked x mem)
  cases found : env.lines.lookup line with
  | none =>
    refine .inl ⟨rfl, fun mem => ?_, ?_⟩
    · obtain ⟨entry, inside, rfl⟩ := mem_map.mp mem
      rw [lookup_of_mem books.distinct inside] at found
      cases found
    · rintro x mem rfl
      rw [marked mem] at found
      cases found
  | some seat =>
    have known := mem_of_lookup found
    cases seat with
    | none =>
      refine .inr (.inl ⟨rfl, mem_map.mpr ⟨_, known, rfl⟩, ?_⟩)
      rintro x mem rfl
      obtain ⟨block, head⟩ := head?_scopes_of_closed closed mem
      rw [marked mem, head] at found
      cases found
    | some block =>
      obtain ⟨x, mem, isLine, _⟩ := books.seats line block known
      refine .inr (.inr ⟨block, rfl, ⟨x, mem, isLine⟩, ?_⟩)
      rintro y mem rfl
      rw [marked mem] at found
      exact Option.some.inj found

/-- The check by the notes is that by the tree. -/
theorem Books.fault?_eq {numbers : List Nat}
    (known : ∀ number, number ∈ numbers ↔ number ∈ env.lines.map Prod.fst) (jump : Jump) :
    jump.fault? env.lines = jumpFault? numbers env.sites jump.scopes jump.target := by
  unfold Jump.fault? jumpFault?
  rcases books.lookup_eq closed jump.target with
    ⟨found, missing, none⟩ | ⟨found, there, none⟩ | ⟨block, found, ⟨x, mem, isLine⟩, heads⟩
  · have nowhere : ¬ ∃ x ∈ env.sites, x.line = jump.target ∧ ∃ block ∈ jump.scopes,
        x.scopes.head? = some block := fun ⟨x, mem, isLine, _⟩ => none x mem isLine
    rw [found, if_neg nowhere, if_pos (mt (known _).mp missing)]
  · have nowhere : ¬ ∃ x ∈ env.sites, x.line = jump.target ∧ ∃ block ∈ jump.scopes,
        x.scopes.head? = some block := fun ⟨x, mem, isLine, _⟩ => none x mem isLine
    rw [found, if_neg nowhere, if_neg (not_not_intro ((known _).mpr there)), if_pos none]
  · have there : jump.target ∈ numbers := by
      rw [known, ← isLine]
      exact mem_map.mpr ⟨_, books.marked x mem, rfl⟩
    have inside : block ∈ jump.scopes ↔ ∃ x ∈ env.sites, x.line = jump.target ∧
        ∃ block ∈ jump.scopes, x.scopes.head? = some block := by
      constructor
      · exact fun inside => ⟨x, mem, isLine, block, inside, heads x mem isLine⟩
      · rintro ⟨y, mem, isLine, other, inside, head⟩
        cases head.symm.trans (heads y mem isLine)
        exact inside
    rw [found]
    dsimp only
    by_cases holds : block ∈ jump.scopes
    · rw [if_pos holds, if_pos (inside.mp holds)]
    · rw [if_neg holds, if_neg (mt inside.mpr holds), if_neg (not_not_intro there),
        if_neg fun none => none x mem isLine]

theorem Books.warning?_eq (jump : Jump) : jump.warning? env.lines =
    if LeavesScope env.sites jump.scopes jump.target then some (jump.target, jump.line) else none := by
  unfold Jump.warning?
  rcases books.lookup_eq closed jump.target with
    ⟨found, _, none⟩ | ⟨found, _, none⟩ | ⟨block, found, ⟨x, mem, isLine⟩, heads⟩
  · rw [found, if_neg fun ⟨x, mem, isLine, _⟩ => none x mem isLine]
  · rw [found, if_neg fun ⟨x, mem, isLine, _⟩ => none x mem isLine]
  · have leaves : jump.scopes.head? ≠ some block ∧ block ∈ jump.scopes ↔
        LeavesScope env.sites jump.scopes jump.target := by
      constructor
      · rintro ⟨other, inside⟩
        have head := heads x mem isLine
        exact ⟨x, mem, isLine, head ▸ other.symm, block, inside, head⟩
      · rintro ⟨y, mem, isLine, other, _, inside, head⟩
        cases head.symm.trans (heads y mem isLine)
        exact ⟨fun own => other (head.trans own.symm), inside⟩
    rw [found]
    simp only [leaves]

end Closed

end Env

/-- All lines have been read, and nothing is left to do but to check the jumps. -/
structure Complete (tokens : List Token) (s : TokenStream) (env : Env) : Prop where
  progress : Progress tokens s env
  ended : s.rest = []
  closed : env.blocks = []
  books : env.Books
  collect : env.collect

variable {tokens : List Token}

theorem exists_complete (lines : InLines tokens)
    (passes : ∃ s env, outcome tokens true = (.ok ((), s), env)) :
    ∃ s env, Complete tokens s env ∧
      outcome tokens true = (env.jumps.toList.forM checkJump).exec s env := by
  obtain ⟨last, final, passes⟩ := passes
  obtain ⟨s, env, read, closed, checked⟩ := Yields.program passes
  obtain ⟨books, collect⟩ := read.statements_keep (fun env => env.Books ∧ env.collect = true)
    (fun h ⟨books, collect⟩ => (h.books_statement books).imp_right (·.trans collect))
    ⟨Env.books_start true, rfl⟩
  rcases (progress_initial tokens true).statements lines (Nat.le_refl _) with
    ⟨d, env', eq, _⟩ | ⟨s', env', eq, ended, progress⟩
  · cases eq.symm.trans read
  · cases eq.symm.trans read
    exact ⟨s, env, ⟨progress, ended, closed, books, collect⟩, passes.trans checked.symm⟩

theorem Complete.mem_lineNumbers (h : Complete tokens s env) (number : Nat) :
    number ∈ lineNumbers tokens ↔ number ∈ env.lines.map Prod.fst := by
  have read : ∀ token, token ∈ s.past ↔ token ∈ tokens := by
    intro token
    rw [← h.progress.whole, TokenStream.toList, h.ended, append_nil, mem_reverse]
  rw [lineNumbers, mem_filterMap]
  constructor
  · rintro ⟨token, mem, eq⟩
    obtain ⟨number', known, first, isFirst, isNumber⟩ :=
      h.progress.numbered token ((read token).mpr mem)
    split at eq
    next own =>
      cases isFirst.symm.trans own
      cases isNumber.2.1.symm.trans eq
      exact known
    next => cases eq
  · intro known
    obtain ⟨token, mem, first, isFirst, isNumber⟩ := h.progress.numbers number known
    have same : first.position.line = token.position.line := by
      simpa using find?_some isFirst
    refine ⟨first, mem_of_find?_eq_some isFirst, ?_⟩
    rw [same, if_pos isFirst]
    exact isNumber.2.1

/-- A jump as it stands in the text and in the tree. -/
structure Jump.Stands (jump : Jump) (goto : Token × Site) : Prop where
  aims : jump.Aims goto.1
  line : goto.2.line = jump.line
  target : goto.2.target = some jump.target
  scopes : goto.2.scopes = jump.scopes

/-- The jumps that are noted are those of the text and those of the tree, in the same order. -/
theorem exists_gotos {jumps : List Jump} {targets : List Token} {sites : List Site}
    (aims : Forall₂ Jump.Aims jumps targets)
    (noted : jumps.map Jump.note = sites.filterMap Site.jump?) :
    ∃ gotos : List (Token × Site), gotos.map Prod.fst = targets ∧
      gotos.map Prod.snd = sites.filter (fun x => x.target.isSome) ∧
      Forall₂ Jump.Stands jumps gotos := by
  induction sites generalizing jumps targets with
  | nil =>
    cases map_eq_nil_iff.mp noted
    cases aims
    exact ⟨[], rfl, rfl, .nil⟩
  | cons x sites ih =>
    cases isTarget : x.target with
    | none =>
      have none : x.jump? = none := by simp [Site.jump?, isTarget]
      rw [filterMap_cons_none none] at noted
      rw [filter_cons_of_neg (by simp [isTarget])]
      exact ih aims noted
    | some target =>
      have own : x.jump? = some (x.line, target, x.scopes) := by simp [Site.jump?, isTarget]
      rw [filterMap_cons_some own] at noted
      rw [filter_cons_of_pos (by simp [isTarget])]
      cases aims with
      | nil => cases noted
      | @cons jump token jumps targets first rest =>
        obtain ⟨note, noted⟩ := List.cons.inj noted
        obtain ⟨gotos, isText, isTree, stands⟩ := ih rest noted
        obtain ⟨line, isSame, scopes⟩ : jump.line = x.line ∧ jump.target = target ∧
          jump.scopes = x.scopes := by simpa [Jump.note] using note
        refine ⟨(token, x) :: gotos, ?_, ?_, .cons ⟨first, line.symm, ?_, scopes.symm⟩ stands⟩
        · rw [map_cons, isText]
        · rw [map_cons, isTree]
        · rw [isTarget, isSame]

end Parse

theorem filterMap_eq_of_forall₂ {α β γ : Type} {R : α → β → Prop} {f : α → Option γ} {g : β → Option γ}
    {as : List α} {bs : List β} (h : Forall₂ R as bs) (same : ∀ a b, R a b → f a = g b) :
    as.filterMap f = bs.filterMap g := by
  have mapped := congrArg (List.filterMap id) (map_eq_of_forall₂ h same)
  rwa [filterMap_map, filterMap_map] at mapped

/-- The faults that a report names. -/
def Report.faults {α : Type} (report : Report α) : List Diagnostic :=
  match report.result with
  | .ok _ => []
  | .error ds => ds.toList

theorem faults_parse (tokens : List Token) (collect : Bool) :
    (parse tokens collect).faults = Parse.found (Parse.outcome tokens collect) := by
  rw [Report.faults, result_parse_eq]
  cases Parse.found (Parse.outcome tokens collect) <;> rfl

theorem leaving_parse (tokens : List Token) (collect : Bool) :
    (parse tokens collect).log.filterMap Event.leaving? = (Parse.outcome tokens collect).2.leaving := by
  have eq : Parse.outcome tokens collect =
      ((Parse.program.run (.ofTokens tokens)).run).run { collect } := rfl
  unfold parse
  rw [← eq]
  rcases Parse.outcome tokens collect with ⟨outcome, env⟩
  dsimp only
  split
  · rfl
  · rw [filterMap_append]
    exact append_nil _

/-- The diagnostic of a jump whose target is this token and whose place in the tree is this one. -/
def gotoFault? (numbers : List Nat) (statements : List Site) (goto : Token × Site) :
    Option Diagnostic :=
  goto.2.target.bind fun target =>
    (jumpFault? numbers statements goto.2.scopes target).map fun fault =>
      { fault := .semantic fault, line := goto.2.line, position := goto.1.position }

/-- The target and the line of a jump that leaves its scope. -/
def gotoWarning? (statements : List Site) (goto : Token × Site) : Option (Nat × Nat) :=
  goto.2.target.bind fun target =>
    if LeavesScope statements goto.2.scopes target then some (target, goto.2.line) else none

/-- A diagnostic of a jump. -/
def Diagnostic.isJump (d : Diagnostic) : Bool :=
  match d.fault with
  | .semantic fault => fault.isJump
  | _ => false

variable {source : String} {tokens : List Token}

/-- The check of the jumps is exact. Each jump of the text has its place in the tree; one diagnostic is
reported for each that leads nowhere, in the order of the text, and one warning is given for each that
leaves its scope. -/
theorem jumps_checked (scanned : tokenize source = .ok tokens)
    (grammatical : ∀ ds, (parse tokens true).result = .error ds → ∀ d ∈ ds.toList, d.stage ≠ .grammar) :
    let tree := (Parse.outcome tokens true).2.tree
    let statements := sitesAll [tree.id] none tree.children
    ∃ gotos : List (Token × Site), gotos.map Prod.fst = gotoTargets tokens ∧
      gotos.map Prod.snd = statements.filter (fun x => x.target.isSome) ∧
      (∀ goto ∈ gotos, Names tokens goto.2.line goto.1.position.line ∧
        ∃ target, goto.2.target = some target ∧ Grammar.IsNumber goto.1 target) ∧
      (parse tokens true).faults.filter Diagnostic.isJump =
        gotos.filterMap (gotoFault? (lineNumbers tokens) statements) ∧
      (parse tokens true).log.filterMap Event.leaving? =
        gotos.filterMap (gotoWarning? statements) := by
  have passes := (Parse.outcome_ok_iff tokens).mpr fun d mem => by
    cases found : Parse.found (Parse.outcome tokens true) with
    | nil =>
      rw [found] at mem
      cases mem
    | cons first others =>
      rw [found] at mem
      exact grammatical ⟨first, others⟩ (result_parse_eq_error.mpr found) d mem
  obtain ⟨s, env, complete, eq⟩ := Parse.exists_complete (inLines_of_tokenize scanned) passes
  obtain ⟨errors, log, run, found, warned, _⟩ :=
    (Parse.exec_checkJumps env.jumps.toList s env).resolve_right (by simp [complete.collect])
  obtain ⟨targets, aims, among⟩ := complete.progress.targets
  have isTargets : gotoTargets tokens = targets := by
    rw [← complete.progress.whole, TokenStream.toList, complete.ended, among, gotoTargets,
      append_nil]
  obtain ⟨gotos, isText, isTree, stands⟩ := Parse.exists_gotos aims complete.books.jumps
  rw [faults_parse, leaving_parse, eq.trans run]
  intro tree statements
  have closed : Env.blocks { env with errors, log } = [] := complete.closed
  have isStatements : statements = env.sites := Env.sites_of_closed closed
  clear_value statements
  subst isStatements
  refine ⟨gotos, isText.trans isTargets.symm, isTree, ?_, ?_, ?_⟩
  · intro goto mem
    obtain ⟨jump, mem, stands⟩ := exists_of_mem_forall₂ stands mem
    refine ⟨?_, jump.target, stands.target, stands.aims.number⟩
    rw [stands.line, ← stands.aims.place]
    exact complete.progress.jumps jump mem
  · have noted : env.errors.toList.filter Diagnostic.isJump = [] := by
      refine filter_eq_nil_iff.mpr fun d mem => ?_
      obtain ⟨fault, isFault, plain⟩ := complete.progress.noted.notes d mem
      simp [Diagnostic.isJump, isFault, plain]
    show errors.toList.filter _ = _
    rw [found, filter_append, noted, nil_append]
    refine (filter_eq_self.mpr fun d mem => ?_).trans
      (filterMap_eq_of_forall₂ stands fun jump goto stands => ?_)
    · obtain ⟨jump, _, eq⟩ := mem_filterMap.mp mem
      obtain ⟨fault, isFault, rfl⟩ := Option.map_eq_some_iff.mp eq
      exact Parse.Jump.isJump_of_fault? isFault
    · rw [complete.books.fault?_eq complete.closed complete.mem_lineNumbers, gotoFault?,
        stands.target, stands.scopes, stands.line, ← stands.aims.place]
      rfl
  · show log.toList.filterMap _ = _
    rw [warned, complete.books.unwarned, nil_append]
    refine filterMap_eq_of_forall₂ stands fun jump goto stands => ?_
    rw [complete.books.warning?_eq complete.closed, gotoWarning?, stands.target, stands.scopes,
      stands.line]
    rfl

/-- Jumps to no line, out of a loop, into it, to its end, and to a line of their own block. -/
theorem jumps_checked_all_ways :
    ∃ (tokens : List Token) (gotos : List (Token × Site)),
      tokenize ("10 GOTO 99\n20 FOR I = 1 TO 2\n30 GOTO 10\n40 LET A = I\n50 END\n60 GOTO 40\n" ++
        "70 GOTO 50\n80 GOTO 60\n") = .ok tokens ∧
      gotos.map Prod.fst = gotoTargets tokens ∧
      gotos.map (Site.line ∘ Prod.snd) = [10, 30, 60, 70, 80] ∧
      (parse tokens true).faults.map Diagnostic.fault = [.semantic (.targetMissing 99),
        .semantic (.targetNested 40), .semantic (.targetNotExecutable 50)] ∧
      (parse tokens true).log.filterMap Event.leaving? = [(10, 30)] := by
  generalize hs : "10 GOTO 99\n20 FOR I = 1 TO 2\n30 GOTO 10\n40 LET A = I\n50 END\n60 GOTO 40\n" ++
    "70 GOTO 50\n80 GOTO 60\n" = source
  have evaluated : ((tokenize source).toOption.map fun tokens =>
      let tree := (Parse.outcome tokens true).2.tree
      ((parse tokens true).faults.map Diagnostic.fault,
        (parse tokens true).log.filterMap Event.leaving?,
        ((sitesAll [tree.id] none tree.children).filter fun x => x.target.isSome).map Site.line)) =
      some ([.semantic (.targetMissing 99), .semantic (.targetNested 40),
        .semantic (.targetNotExecutable 50)], [(10, 30)], [10, 30, 60, 70, 80]) := by
    subst hs
    decide +kernel
  obtain ⟨tokens, scanned, shown⟩ := exists_ok_of_map evaluated
  obtain ⟨faults, shown⟩ := Prod.mk.inj shown
  obtain ⟨warnings, lines⟩ := Prod.mk.inj shown
  have grammatical : ∀ ds, (parse tokens true).result = .error ds → ∀ d ∈ ds.toList,
      d.stage ≠ .grammar := by
    intro ds failed d mem
    rw [Report.faults, failed] at faults
    have mem := faults ▸ mem_map_of_mem (f := Diagnostic.fault) mem
    have semantic : ∀ fault ∈ [Fault.semantic (.targetMissing 99), .semantic (.targetNested 40),
        .semantic (.targetNotExecutable 50)], fault.stage ≠ .grammar := by decide
    exact semantic _ mem
  obtain ⟨gotos, isText, isTree, _⟩ := jumps_checked scanned grammatical
  refine ⟨tokens, gotos, scanned, isText, ?_, faults, warnings⟩
  rw [← map_map, isTree]
  exact lines

end LineBasic
