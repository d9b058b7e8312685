import LineBasic.Proofs.Parse.Reports

/-!
The diagnostics of a parse, in order: what is noted while statements are read, line by line, then
one fault that ends the parse or the faults of the jumps.
-/

namespace LineBasic

open List

open Parse (Env Jump)

/-- The first token on a line of the text is the number of its statement. -/
def Names (tokens : List Token) (number line : Nat) : Prop :=
  ∃ first, tokens.find? (fun token => token.position.line == line) = some first ∧
    Grammar.IsNumber first number

/-- The number of the last statement before a line of the text. Before the first statement it is zero. -/
def Previous (tokens : List Token) (number line : Nat) : Prop :=
  (number = 0 ∧ ∀ token ∈ tokens, line ≤ token.position.line) ∨
    ∃ last ∈ tokens, last.position.line < line ∧
      (∀ token ∈ tokens, token.position.line < line → token.position.line ≤ last.position.line) ∧
      Names tokens number last.position.line

/-- What can be wrong with the token that should be the number of a line. -/
inductive LabelFault (label : Token) : Fault → Prop
  | expected : label.kind ≠ .literal .integer →
      LabelFault label (.grammar (.lineNumberExpected label.kind))
  | range : label.kind = .literal .integer → (∀ number, ¬ Grammar.IsNumber label number) →
      LabelFault label (.grammar (.lineNumberRange label.text))
  | duplicate {number : Nat} : Grammar.IsNumber label number →
      LabelFault label (.grammar (.duplicateLine number))

/-- A diagnostic about the number of a line, under the number of the statement before. -/
def Diagnostic.IsOfLabel (tokens : List Token) (d : Diagnostic) (number : Nat) (p : Position) : Prop :=
  ∃ label, tokens.find? (fun token => token.position.line == p.line) = some label ∧
    p = label.position ∧ LabelFault label d.fault ∧ Previous tokens number p.line

/-- The first diagnostic is on no later line than the second, as far as they have places. -/
def Diagnostic.NotAfter (first second : Diagnostic) : Prop :=
  ∀ p ∈ first.position, ∀ q ∈ second.position, p.line ≤ q.line

/-- The tokens behind `GOTO`, in the order of the text. -/
def gotoTargets : List Token → List Token
  | [] => []
  | word :: rest =>
    if word.kind = .keyword .GOTO then rest.head?.toList ++ gotoTargets rest else gotoTargets rest

theorem gotoTargets_append {front : List Token}
    (other : ∀ token ∈ front, token.kind.announcesLine = false) (back : List Token) :
    gotoTargets (front ++ back) = gotoTargets back := by
  induction front with
  | nil => rfl
  | cons word front ih =>
    obtain ⟨inside, rest⟩ := forall_mem_cons.mp other
    rw [cons_append, gotoTargets, if_neg, ih rest]
    rintro isGoto
    rw [isGoto] at inside
    cases inside

namespace Parse

/-- A jump to the line whose number a token stands for. -/
structure Jump.Aims (jump : Jump) (target : Token) : Prop where
  place : jump.position = target.position
  number : Grammar.IsNumber target jump.target

theorem positions_of_aims {jumps : List Jump} {targets : List Token}
    (h : Forall₂ Jump.Aims jumps targets) :
    jumps.map Jump.position = targets.map Token.position :=
  map_eq_of_forall₂ h fun _ _ aims => aims.place

section Statement

variable {s : TokenStream} {env env' : Env} {line : Nat}

theorem exec_gotoStatement (on : OnLine line s.rest) (env : Env) :
    (∃ d, gotoStatement.exec s env = (.error d, env) ∧ d.IsOf env.line line) ∨
      ∃ target s' number env₁, s.rest = target :: s'.rest ∧ s'.past = target :: s.past ∧
        target.position.line = line ∧ OnLine line s'.rest ∧ env.Notes line env₁ ∧
        Grammar.IsNumber target number ∧
        gotoStatement.exec s env = (.ok ((), s'), env₁.jumped number target.position) := by
  obtain ⟨past, rest⟩ := s
  cases rest with
  | nil => cases on
  | cons target rest =>
    obtain ⟨here, onRest⟩ := OnLine.cons_iff.mp on
    unfold gotoStatement
    rw [exec_bind]
    by_cases isInteger : target.kind = .literal .integer
    · rw [exec_expect_cons isInteger]
      dsimp only
      rw [exec_bind]
      cases found : (Text.natural? target.text.toList).filter (· < 0x100000000) with
      | none =>
        have failed : (lineNumber target).exec ⟨target :: past, rest⟩ env = (.error
            ⟨.grammar (.lineNumberRange target.text), env.line, target.position⟩, env) := by
          unfold lineNumber
          rw [found]
          rfl
        rw [failed]
        exact .inl ⟨_, rfl, rfl, target.position, rfl, here⟩
      | some number =>
        have read : (lineNumber target).exec ⟨target :: past, rest⟩ env =
            (.ok (number, ⟨target :: past, rest⟩), env) := by
          unfold lineNumber
          rw [found]
          rfl
        rw [read]
        have notes : env.Notes line ({ env with size := env.size + 1 }.attached
            ⟨env.size, env.line, .goto number, []⟩) := by
          have counted : env.Notes line { env with size := env.size + 1 } := .of_eq rfl rfl rfl rfl
          exact (counted.trans (Env.notes_updateCurrent _ _)).trans (Env.Plain.markLine _).notes
        obtain ⟨isNatural, small⟩ := Option.filter_eq_some_iff.mp found
        exact .inr ⟨target, ⟨target :: past, rest⟩, number, _, rfl, rfl, here,
          onRest (by simp [Token.isNewline, isInteger]), notes,
          ⟨isInteger, isNatural, by simpa using small⟩, rfl⟩
    · unfold expect
      rw [exec_bind, exec_get]
      simp only [TokenStream.consume, if_neg isInteger]
      exact .inl ⟨_, rfl, ⟨rfl, target.position, rfl, here⟩⟩

theorem exec_lineLabel (label : Token) (past rest : List Token) (env : Env) :
    (∃ d, lineLabel.exec ⟨past, label :: rest⟩ env = (.error d, env) ∧ LabelFault label d.fault ∧
        d.line = some env.line ∧ d.position = some label.position) ∨
      ∃ number, Grammar.IsNumber label number ∧
        lineLabel.exec ⟨past, label :: rest⟩ env =
          (.ok ((), ⟨label :: past, rest⟩), env.labelled number) := by
  unfold lineLabel
  rw [exec_advance_bind]
  by_cases isInteger : label.kind = .literal .integer
  · simp only [isInteger, ne_eq, not_true_eq_false, if_false]
    unfold lineNumber
    cases found : (Text.natural? label.text.toList).filter (· < 0x100000000) with
    | none =>
      refine .inl ⟨⟨.grammar (.lineNumberRange label.text), env.line, label.position⟩, rfl,
        .range isInteger fun number isNumber => ?_, rfl, rfl⟩
      rw [isNumber.2.1, Option.filter_some_pos (by simpa using isNumber.2.2)] at found
      cases found
    | some number =>
      obtain ⟨isNatural, small⟩ := Option.filter_eq_some_iff.mp found
      have isNumber : Grammar.IsNumber label number := ⟨isInteger, isNatural, by simpa using small⟩
      simp only [pure_bind]
      rw [exec_bind, exec_getThe]
      dsimp only
      split
      next =>
        exact .inl ⟨⟨.grammar (.duplicateLine number), env.line, label.position⟩, rfl,
          .duplicate isNumber, rfl, rfl⟩
      next => exact .inr ⟨number, isNumber, rfl⟩
  · simp only [ne_eq, isInteger, not_false_eq_true, if_true]
    exact .inl ⟨⟨.grammar (.lineNumberExpected label.kind), env.line, label.position⟩, rfl,
      .expected isInteger, rfl, rfl⟩

/-- How a statement ends behind its number. Its jumps are those its tokens have. -/
inductive BodyEnds (word : Token) (s : TokenStream) (line : Nat) (env : Env) :
    Except Diagnostic (Unit × TokenStream) × Env → Prop
  | done (used targets : List Token) (jumps : List Jump) {s' : TokenStream} {env₁ env' : Env} :
      OnLine line s'.rest → s'.toList = s.toList → env.Notes line env₁ → env'.line = env₁.line →
      env'.errors = env₁.errors → env'.lines = env₁.lines →
      env'.jumps.toList = env₁.jumps.toList ++ jumps →
      (∀ jump ∈ jumps, jump.line = env.line ∧ jump.position.line = line) →
      s'.past = used.reverse ++ s.past →
      (∀ back, gotoTargets (word :: (used ++ back)) = targets ++ gotoTargets back) →
      Forall₂ Jump.Aims jumps targets →
      BodyEnds word s line env (.ok ((), s'), env')
  | failed {d : Diagnostic} {env' : Env} : d.IsOf env.line line → env.Notes line env' →
      BodyEnds word s line env (.error d, env')

theorem bodyEnds_statementBody {word : Token} (here : word.position.line = line)
    (on : word.isNewline = false → OnLine line s.rest) (env : Env) :
    BodyEnds word s line env ((statementBody word).exec s env) := by
  by_cases newline : word.kind = .separator .newline
  · unfold statementBody
    rw [newline]
    exact .failed ⟨rfl, word.position, rfl, here⟩ (.refl env)
  · have on := on (by simpa [Token.isNewline] using newline)
    by_cases jumps : word.kind = .keyword .GOTO
    · unfold statementBody
      rw [jumps]
      rcases exec_gotoStatement on env with ⟨d, eq, isOf⟩ |
        ⟨target, s', number, env₁, rest, past, place, on', notes, isNumber, eq⟩
      · rw [eq]
        exact .failed isOf (.refl env)
      · rw [eq]
        refine .done [target] [target] _ on' ?_ notes rfl rfl rfl Array.toList_push ?_ past ?_
          (.cons ⟨rfl, isNumber⟩ .nil)
        · simp [TokenStream.toList, past, rest]
        · intro jump mem
          rw [mem_singleton.mp mem]
          exact ⟨notes.number, place⟩
        · simp [gotoTargets, jumps, isNumber.1]
    · have h : Check.EndsOn line _ env ((statementBody word).exec s env) :=
        along_statementBody (along_concerns s) ⟨rfl, here⟩ jumps s s ⟨rfl, on, .refl s⟩ env
      generalize (statementBody word).exec s env = result at h
      cases h with
      | failed isOf notes => exact .failed isOf notes
      | @done read env' keeps notes =>
        obtain ⟨⟨⟩, s'⟩ := read
        obtain ⟨_, _, -, on', leads⟩ := keeps
        obtain ⟨used, past, inside⟩ := leads.past
        refine .done used.reverse [] [] on' leads.whole notes rfl rfl rfl (by simp) (by simp) ?_
          (fun back => ?_) .nil
        · rw [reverse_reverse, past]
        · rw [gotoTargets, if_neg jumps,
            gotoTargets_append fun token mem => inside token (mem_reverse.mp mem)]
          rfl

theorem exec_lineEnd (word : Token) (on : OnLine line s.rest) (env : Env) : ∃ log,
    (∃ d, (lineEnd word).exec s env = (.error d, { env with log }) ∧ d.IsOf env.line line) ∨
      ∃ newline rest, s.rest = newline :: rest ∧ newline.isNewline ∧ newline.position.line = line ∧
        (lineEnd word).exec s env = (.ok ((), ⟨newline :: s.past, rest⟩), { env with log }) := by
  obtain ⟨past, rest⟩ := s
  cases rest with
  | nil => cases on
  | cons token rest =>
    obtain ⟨here, -⟩ := OnLine.cons_iff.mp on
    obtain ⟨log, eq⟩ := exec_lineEnd_cons word token past rest env
    refine ⟨log, ?_⟩
    rw [eq]
    by_cases newline : token.kind = .separator .newline
    · rw [if_pos newline]
      exact .inr ⟨token, rest, rfl, by simp [Token.isNewline, newline], here, rfl⟩
    · rw [if_neg newline]
      exact .inl ⟨_, rfl, rfl, token.position, rfl, here⟩

inductive StatementEnds (label : Token) (s : TokenStream) (env : Env) :
    Except Diagnostic (Unit × TokenStream) × Env → Prop
  | unnumbered {d : Diagnostic} : LabelFault label d.fault → d.line = some env.line →
      d.position = some label.position → StatementEnds label s env (.error d, env)
  | failed {number : Nat} {d : Diagnostic} {ds : List Diagnostic} {env' : Env} :
      Grammar.IsNumber label number → d.IsOf number label.position.line →
      env'.errors.toList = env.errors.toList ++ ds →
      (∀ d ∈ ds, d.IsOf number label.position.line ∧ d.IsNote) →
      StatementEnds label s env (.error d, env')
  | done (used targets : List Token) {number : Nat} {ds : List Diagnostic} {jumps : List Jump}
      {newline : Token} {s' : TokenStream} {env' : Env} :
      Grammar.IsNumber label number → env'.line = number →
      env'.lines.map Prod.fst = number :: env.lines.map Prod.fst →
      env'.errors.toList = env.errors.toList ++ ds →
      (∀ d ∈ ds, d.IsOf number label.position.line ∧ d.IsNote) →
      s'.toList = s.toList → s'.past = newline :: (used.reverse ++ s.past) → newline.isNewline →
      newline.position.line = label.position.line →
      env'.jumps.toList = env.jumps.toList ++ jumps →
      (∀ jump ∈ jumps, jump.line = number ∧ jump.position.line = label.position.line) →
      (∀ back, gotoTargets (used ++ newline :: back) = targets ++ gotoTargets back) →
      Forall₂ Jump.Aims jumps targets → StatementEnds label s env (.ok ((), s'), env')

theorem statementEnds {label : Token} {rest : List Token}
    (on : OnLine label.position.line (label :: rest)) (past : List Token) (env : Env) :
    StatementEnds label ⟨past, label :: rest⟩ env (statement.exec ⟨past, label :: rest⟩ env) := by
  rw [statement_eq, exec_bind]
  rcases exec_lineLabel label past rest env with ⟨d, eq, fault, number, place⟩ | ⟨number, isNumber, eq⟩
  · rw [eq]
    exact .unnumbered fault number place
  rw [eq]
  have inside : label.isNewline = false := by simp [Token.isNewline, isNumber.1]
  have onRest := (OnLine.cons_iff.mp on).2 inside
  cases rest with
  | nil => cases onRest
  | cons word rest =>
    obtain ⟨here, onBody⟩ := OnLine.cons_iff.mp onRest
    dsimp only
    rw [exec_advance_bind, exec_bind]
    have body := bodyEnds_statementBody (s := ⟨word :: label :: past, rest⟩) here onBody
      (env.labelled number)
    rcases eq : (statementBody word).exec ⟨word :: label :: past, rest⟩ (env.labelled number) with
      ⟨d | ⟨⟨⟩, s'⟩, env'⟩
    · rw [eq] at body
      cases body with
      | failed isOf notes =>
        obtain ⟨_, _, _, ds, errors, noted⟩ := notes
        exact .failed isNumber isOf errors noted
    · rw [eq] at body
      cases body with
      | done used targets jumps on' whole notes line errors lines kept ofJumps past' among aims =>
        obtain ⟨number', jumps', numbers, ds, errors', noted⟩ := notes
        rw [← errors] at errors'
        obtain ⟨log, ended⟩ := exec_lineEnd word on' env'
        rcases ended with ⟨d, eq, isOf⟩ | ⟨newline, after, rest', isNewline, place, eq⟩
        · dsimp only
          rw [eq]
          refine .failed isNumber ?_ errors' noted
          rw [line, number'] at isOf
          exact isOf
        · dsimp only
          rw [eq]
          refine .done (label :: word :: used) targets isNumber (line.trans number') ?_ errors' noted
            ?_ ?_ isNewline place (kept.trans ?_) ofJumps (fun back => ?_) aims
          · rw [lines, numbers]
            rfl
          · simp [TokenStream.toList, rest'] at whole ⊢
            exact whole
          · simp [past']
          · rw [jumps']
            rfl
          · have inside : newline.kind = .separator .newline := by
              simpa [Token.isNewline] using isNewline
            rw [cons_append, gotoTargets, if_neg (by simp [isNumber.1])]
            exact (among _).trans (by simp [gotoTargets, inside])

end Statement

section Run

variable {tokens : List Token}

/-- Diagnostics that are noted up to a line of the text: each names its statement. -/
structure Noted (tokens : List Token) (line : Nat) (ds : List Diagnostic) : Prop where
  notes : ∀ d ∈ ds, d.IsNote
  named : ∀ d ∈ ds, ∃ number p, d.line = some number ∧ d.position = some p ∧
    Names tokens number p.line ∧ p.line ≤ line
  ordered : ds.Pairwise Diagnostic.NotAfter

theorem Noted.append {line line' number : Nat} {ds ds' : List Diagnostic} (h : Noted tokens line ds)
    (later : line ≤ line') (names : Names tokens number line')
    (noted : ∀ d ∈ ds', d.IsOf number line' ∧ d.IsNote) : Noted tokens line' (ds ++ ds') where
  notes d mem := by
    rcases mem_append.mp mem with mem | mem
    · exact h.notes d mem
    · exact (noted d mem).2
  named d mem := by
    rcases mem_append.mp mem with mem | mem
    · obtain ⟨number', p, eq, place, names', le⟩ := h.named d mem
      exact ⟨number', p, eq, place, names', Nat.le_trans le later⟩
    · obtain ⟨eq, p, place, rfl⟩ := (noted d mem).1
      exact ⟨number, p, eq, place, names, Nat.le_refl _⟩
  ordered := by
    refine pairwise_append.mpr ⟨h.ordered, ?_, ?_⟩
    · refine pairwise_of_forall_mem_list fun d mem d' mem' p place q place' => ?_
      obtain ⟨_, p', eq, rfl⟩ := (noted d mem).1
      obtain ⟨_, q', eq', same⟩ := (noted d' mem').1
      cases eq.symm.trans place
      cases eq'.symm.trans place'
      exact Nat.le_of_eq same.symm
    · intro d mem d' mem' p place q place'
      obtain ⟨_, p', _, eq, _, le⟩ := h.named d mem
      obtain ⟨_, q', eq', same⟩ := (noted d' mem').1
      cases eq.symm.trans place
      cases eq'.symm.trans place'
      omega

def TokenStream.lastLine (s : TokenStream) : Nat :=
  (s.past.head?.map fun token => token.position.line).getD 0

/-- What holds between two statements of a program. -/
structure Progress (tokens : List Token) (s : TokenStream) (env : Env) : Prop where
  whole : s.toList = tokens
  ended : ∀ token ∈ s.past.head?, token.isNewline ∧ Names tokens env.line token.position.line
  initial : s.past = [] → env.line = 0
  noted : Noted tokens (TokenStream.lastLine s) env.errors.toList
  jumps : ∀ jump ∈ env.jumps.toList, Names tokens jump.line jump.position.line
  targets : ∃ targets, Forall₂ Jump.Aims env.jumps.toList targets ∧
    ∀ back, gotoTargets (s.past.reverse ++ back) = targets ++ gotoTargets back
  numbers : ∀ number ∈ env.lines.map Prod.fst,
    ∃ token ∈ s.past, Names tokens number token.position.line
  numbered : ∀ token ∈ s.past,
    ∃ number ∈ env.lines.map Prod.fst, Names tokens number token.position.line

/-- A fault ends the parse, behind all that is noted. It names its statement, or the statement before
the line whose number is at fault. -/
structure Stopped (tokens : List Token) (d : Diagnostic) (env : Env) : Prop where
  named : ∃ number p, d.line = some number ∧ d.position = some p ∧
    (Names tokens number p.line ∨ d.IsOfLabel tokens number p)
  noted : ∃ line, Noted tokens line env.errors.toList
  ordered : ∀ note ∈ env.errors.toList, note.NotAfter d

/-- The lines of a text with tokens, each of which ends with a newline. -/
structure InLines (tokens : List Token) : Prop where
  chain : tokens.IsChain Token.Precedes
  last : ∀ token ∈ tokens.getLast?, token.isNewline

section Step

variable {label : Token} {past rest : List Token} {env : Env}

section

variable (h : Progress tokens ⟨past, label :: rest⟩ env) (lines : InLines tokens)

include h lines

theorem Progress.starts :
    OnLine label.position.line (label :: rest) ∧
      tokens.find? (fun token => token.position.line == label.position.line) = some label ∧
      (∀ token ∈ past, token.position.line < label.position.line) ∧
      ∀ token ∈ rest, label.position.line ≤ token.position.line := by
  have whole : tokens = past.reverse ++ label :: rest := h.whole.symm
  have chain := lines.chain
  rw [whole] at chain
  have before : ∀ token ∈ past.reverse, token.position.line < label.position.line := by
    refine lt_of_isChain chain fun token mem => (h.ended token ?_).1
    rwa [getLast?_reverse] at mem
  have last : ∀ token ∈ (label :: rest).getLast?, token.isNewline := by
    intro token mem
    refine lines.last token ?_
    rw [whole, getLast?_append, Option.mem_def.mp mem]
    rfl
  refine ⟨onLine_of_isChain (isChain_append.mp chain).2.1 last, ?_, ?_, ?_⟩
  · rw [whole, find?_append, find?_eq_none.mpr, Option.none_or]
    · simp
    · intro token mem
      have := before token mem
      simp only [beq_iff_eq]
      omega
  · exact fun token mem => before token (mem_reverse.mpr mem)
  · have ordered := (pairwise_append.mp (pairwise_of_isChain chain)).2.1
    exact (pairwise_cons.mp ordered).1

theorem Progress.lastLine_le :
    TokenStream.lastLine ⟨past, label :: rest⟩ ≤ label.position.line := by
  obtain ⟨_, _, before, _⟩ := h.starts lines
  cases past with
  | nil => exact Nat.zero_le _
  | cons last past => exact Nat.le_of_lt (before last (.head _))

theorem Progress.previous :
    Previous tokens env.line label.position.line := by
  obtain ⟨_, _, before, after⟩ := h.starts lines
  have whole : tokens = past.reverse ++ label :: rest := h.whole.symm
  cases past with
  | nil =>
    refine .inl ⟨h.initial rfl, fun token mem => ?_⟩
    rw [whole] at mem
    rcases mem_cons.mp mem with rfl | mem
    · exact Nat.le_refl _
    · exact after token mem
  | cons last past =>
    refine .inr ⟨last, ?_, before last (.head _), fun token mem lt => ?_, (h.ended last rfl).2⟩
    · rw [whole]
      simp
    · rw [whole] at mem
      have chain := pairwise_of_isChain lines.chain
      rw [whole, reverse_cons, append_assoc] at chain
      rw [reverse_cons, append_assoc] at mem
      have ordered := (pairwise_append.mp chain).2.2
      rcases mem_append.mp mem with mem | mem
      · exact ordered token mem last (by simp)
      · rcases mem_cons.mp mem with rfl | mem
        · exact Nat.le_refl _
        · rcases mem_cons.mp mem with rfl | mem
          · omega
          · have := after token mem
            omega

/-- One statement: what holds before it holds behind it, unless it is at fault. -/
theorem Progress.statement :
    (∃ d env', Parse.statement.exec ⟨past, label :: rest⟩ env = (.error d, env') ∧
        Stopped tokens d env') ∨
      ∃ s' env', Parse.statement.exec ⟨past, label :: rest⟩ env = (.ok ((), s'), env') ∧
        s'.rest.length ≤ rest.length ∧ Progress tokens s' env' := by
  obtain ⟨on, first, _, after⟩ := h.starts lines
  have before := h.lastLine_le lines
  have names {number : Nat} (isNumber : Grammar.IsNumber label number) :
      Names tokens number label.position.line := ⟨label, first, isNumber⟩
  have ends := statementEnds on past env
  generalize eq : Parse.statement.exec ⟨past, label :: rest⟩ env = result at ends
  cases ends with
  | @unnumbered d fault number place =>
    refine .inl ⟨d, env, rfl, ?_, ⟨_, h.noted⟩, ?_⟩
    · exact ⟨env.line, label.position, number, place, .inr ⟨label, first, rfl, fault, h.previous lines⟩⟩
    · intro note mem p place' q place''
      obtain ⟨_, p', _, eq', _, le⟩ := h.noted.named note mem
      cases eq'.symm.trans place'
      cases place.symm.trans place''
      omega
  | @failed number d ds env' isNumber isOf errors noted =>
    have all := h.noted.append before (names isNumber) noted
    rw [← errors] at all
    obtain ⟨line, p, place, on'⟩ := isOf
    refine .inl ⟨d, env', rfl, ?_, ⟨_, all⟩, ?_⟩
    · exact ⟨number, p, line, place, .inl (on' ▸ names isNumber)⟩
    · intro note mem q place' r place''
      obtain ⟨_, q', _, eq', _, le⟩ := all.named note mem
      cases eq'.symm.trans place'
      cases place.symm.trans place''
      omega
  | @done used targets number ds jumps newline s' env' isNumber line lines' errors noted whole past'
      isNewline place kept ofJumps among aims =>
    have all := h.noted.append before (names isNumber) noted
    rw [← errors, ← place] at all
    have fewer : s'.rest.length ≤ rest.length := by
      have length := congrArg List.length whole
      simp only [TokenStream.toList, past', length_append, length_reverse,
        length_cons] at length
      omega
    refine .inr ⟨s', env', rfl, fewer, whole.trans h.whole, ?_, ?_, ?_, ?_, ?_, ?_, ?_⟩
    · intro token mem
      rw [past'] at mem
      cases mem
      rw [place, line]
      exact ⟨isNewline, names isNumber⟩
    · intro none
      rw [past'] at none
      cases none
    · rw [TokenStream.lastLine, past']
      exact all
    · intro jump mem
      rw [kept] at mem
      rcases mem_append.mp mem with mem | mem
      · exact h.jumps jump mem
      · obtain ⟨line', place'⟩ := ofJumps jump mem
        rw [line', place']
        exact names isNumber
    · obtain ⟨before, aims', among'⟩ := h.targets
      refine ⟨before ++ targets, kept ▸ rel_append aims' aims, fun back => ?_⟩
      rw [past']
      simp only [reverse_cons, reverse_append, reverse_reverse, append_assoc,
        singleton_append]
      rw [among', among]
    · intro n mem
      rw [lines'] at mem
      rw [past']
      rcases mem_cons.mp mem with rfl | mem
      · exact ⟨newline, .head _, place ▸ names isNumber⟩
      · obtain ⟨token, mem, names'⟩ := h.numbers n mem
        exact ⟨token, by simp [mem], names'⟩
    · intro token mem
      rw [lines']
      rw [past', ← cons_append] at mem
      rcases mem_append.mp mem with mem | mem
      · refine ⟨number, .head _, ?_⟩
        suffices token.position.line = label.position.line from this ▸ names isNumber
        -- The statement's tokens are behind its number and not behind its newline.
        have ordered := pairwise_of_isChain lines.chain
        have read : used ++ newline :: s'.rest = label :: rest := by
          simpa [TokenStream.toList, past'] using whole
        rw [← h.whole, TokenStream.toList, ← read] at ordered
        have ordered := (pairwise_append.mp ordered).2.1
        rcases mem_cons.mp mem with rfl | mem
        · exact place
        · have mem := mem_reverse.mp mem
          have le := (pairwise_append.mp ordered).2.2 token mem newline (.head _)
          rcases mem_cons.mp (read ▸ mem_append_left _ mem) with rfl | mem
          · rfl
          · have := after token mem
            omega
      · obtain ⟨n, known, names'⟩ := h.numbered token mem
        exact ⟨n, mem_cons_of_mem _ known, names'⟩

end

end Step

/-- All statements: the invariant goes from one to the next, so it holds behind the last. -/
theorem Progress.statements {s : TokenStream} {env : Env} (h : Progress tokens s env)
    (lines : InLines tokens) {bound : Nat} (enough : s.rest.length ≤ bound) :
    (∃ d env', (Parse.statements bound).exec s env = (.error d, env') ∧ Stopped tokens d env') ∨
      ∃ s' env', (Parse.statements bound).exec s env = (.ok ((), s'), env') ∧ s'.rest = [] ∧
        Progress tokens s' env' := by
  induction bound generalizing s env with
  | zero => exact .inr ⟨s, env, rfl, length_eq_zero_iff.mp (Nat.le_zero.mp enough), h⟩
  | succ bound ih =>
    unfold Parse.statements
    rw [exec_bind, exec_get]
    dsimp only
    obtain ⟨past, rest⟩ := s
    cases rest with
    | nil => exact .inr ⟨_, env, rfl, rfl, h⟩
    | cons label rest =>
      rw [if_neg (by simp [TokenStream.atEnd]), exec_bind]
      rcases h.statement lines with ⟨d, env', eq, stopped⟩ | ⟨s', env', eq, fewer, h'⟩
      · rw [eq]
        exact .inl ⟨d, env', rfl, stopped⟩
      · rw [eq]
        exact ih h' (Nat.le_trans fewer (Nat.le_of_succ_le_succ enough))

theorem progress_initial (tokens : List Token) (collect : Bool) :
    Progress tokens (.ofTokens tokens) { collect } where
  whole := TokenStream.toList_ofTokens tokens
  ended token mem := by cases mem
  initial _ := rfl
  noted := ⟨by simp, by simp, .nil⟩
  jumps := by simp
  targets := ⟨[], .nil, fun _ => rfl⟩
  numbers := by simp
  numbered := by simp [TokenStream.ofTokens]

end Run

/-- A diagnostic of a jump, at its target. -/
structure IsOfJump (jump : Jump) (d : Diagnostic) : Prop where
  number : d.line = some jump.line
  place : d.position = some jump.position
  fault : ∃ fault, d.fault = .semantic fault ∧ fault.isJump

section Jumps

variable {s : TokenStream} {env : Env}

theorem Jump.isJump_of_fault? {jump : Jump} {lines : List (Nat × Option Nat)} {fault : SemanticFault}
    (h : jump.fault? lines = some fault) : fault.isJump := by
  unfold Jump.fault? at h
  split at h
  next => split at h <;> cases h; rfl
  next => cases h; rfl
  next => cases h; rfl

theorem exists_checked {lines : List (Nat × Option Nat)} {jumps : List Jump} {ds : List Diagnostic}
    (h : Sublist ds (Jump.faults lines jumps)) :
    ∃ checked, Sublist checked jumps ∧ Forall₂ IsOfJump checked ds := by
  induction jumps generalizing ds with
  | nil =>
    cases h
    exact ⟨[], .slnil, .nil⟩
  | cons jump jumps ih =>
    rw [Jump.faults, filterMap_cons] at h
    cases found : jump.fault? lines with
    | none =>
      rw [found] at h
      obtain ⟨checked, sublist, faults⟩ := ih h
      exact ⟨checked, sublist.cons _, faults⟩
    | some fault =>
      rw [found] at h
      cases h with
      | cons _ h =>
        obtain ⟨checked, sublist, faults⟩ := ih h
        exact ⟨checked, sublist.cons _, faults⟩
      | cons_cons _ h =>
        obtain ⟨checked, sublist, faults⟩ := ih h
        exact ⟨jump :: checked, sublist.cons_cons _,
          .cons ⟨rfl, rfl, fault, rfl, Jump.isJump_of_fault? found⟩ faults⟩

theorem found_checkJumps (jumps : List Jump) (s : TokenStream) (env : Env) :
    ∃ checked ds, Sublist checked jumps ∧ Forall₂ IsOfJump checked ds ∧
      found ((jumps.forM checkJump).exec s env) = env.errors.toList ++ ds := by
  rcases exec_checkJumps jumps s env with ⟨_, _, eq, same, _⟩ | ⟨d, _, _, eq, same, _, mem⟩
  · obtain ⟨checked, sublist, faults⟩ := exists_checked (Sublist.refl (Jump.faults env.lines jumps))
    exact ⟨checked, _, sublist, faults, by rw [eq]; exact same⟩
  · obtain ⟨checked, sublist, faults⟩ := exists_checked (singleton_sublist.mpr mem)
    exact ⟨checked, [d], sublist, faults, by rw [eq]; exact congrArg (· ++ [d]) same⟩

theorem positions_of_jumps {jumps : List Jump} {ds : List Diagnostic}
    (h : Forall₂ IsOfJump jumps ds) :
    ds.map Diagnostic.position = (jumps.map Jump.position).map some := by
  rw [map_map]
  exact (map_eq_of_forall₂ h fun _ _ isOf => isOf.place.symm).symm

end Jumps

/-- The ways a parse of tokens in lines can end. -/
inductive ProgramEnds (tokens : List Token) : Except Diagnostic (Unit × TokenStream) × Env → Prop
  | stopped {d : Diagnostic} {env : Env} : Stopped tokens d env → ProgramEnds tokens (.error d, env)
  | unclosed {d : Diagnostic} {env : Env} {line : Nat} : Noted tokens line env.errors.toList →
      d.line = none → d.position = none → ProgramEnds tokens (.error d, env)
  | checked {line : Nat} {notes ds : List Diagnostic} {jumps : List Jump}
      {result : Except Diagnostic (Unit × TokenStream) × Env} : Noted tokens line notes →
      (∀ jump ∈ jumps, Names tokens jump.line jump.position.line) →
      (jumps.map Jump.position).Sublist ((gotoTargets tokens).map Token.position) →
      Forall₂ IsOfJump jumps ds → found result = notes ++ ds → ProgramEnds tokens result

theorem programEnds {tokens : List Token} (lines : InLines tokens) (collect : Bool) :
    ProgramEnds tokens (outcome tokens collect) := by
  have parts : program = get >>= fun s => statements s.rest.length >>= fun _ => checkClosed >>=
      fun _ => getThe Env >>= fun env => env.jumps.toList.forM checkJump := rfl
  rw [outcome, parts, exec_bind, exec_get]
  dsimp only
  rw [exec_bind]
  rcases (progress_initial tokens collect).statements lines (Nat.le_refl _)
    with ⟨d, env, eq, stopped⟩ | ⟨s, env, eq, ended, h⟩
  · rw [eq]
    exact .stopped stopped
  · rw [eq]
    dsimp only
    rw [exec_bind]
    unfold checkClosed
    rw [exec_bind, exec_getThe]
    dsimp only
    cases env.blocks.getLast? with
    | some outermost => exact .unclosed h.noted rfl rfl
    | none =>
      show ProgramEnds tokens ((env.jumps.toList.forM checkJump).exec s env)
      obtain ⟨checked, ds, sublist, faults, eq⟩ := found_checkJumps env.jumps.toList s env
      refine .checked h.noted (fun jump mem => h.jumps jump (sublist.subset mem)) ?_ faults eq
      obtain ⟨targets, aims, among⟩ := h.targets
      rw [← h.whole, TokenStream.toList, ended, among, gotoTargets, append_nil,
        ← positions_of_aims aims]
      exact sublist.map _

end Parse

theorem result_parse_eq_error {tokens : List Token} {collect : Bool} {ds : Diagnostics} :
    (parse tokens collect).result = .error ds ↔
      Parse.found (Parse.outcome tokens collect) = ds.toList := by
  rw [result_parse_eq]
  cases Parse.found (Parse.outcome tokens collect) with
  | nil => simp [Diagnostics.toList]
  | cons d others =>
    obtain ⟨first, rest⟩ := ds
    simp [Diagnostics.toList]

theorem inLines_of_tokenize {source : String} {tokens : List Token}
    (h : tokenize source = .ok tokens) : Parse.InLines tokens := by
  refine ⟨isChain_of_tokenize h, fun token mem => (cover_of_tokenize h).last token ?_⟩
  rw [Option.mem_def.mp mem]
  rfl

/-- The order of diagnostics: notes of the statements, line by line, then either one fault of the grammar,
on no earlier line, or faults of jumps, in the order of the text. -/
def InOrder (tokens : List Token) (ds : List Diagnostic) : Prop :=
  ∃ notes ending, ds = notes ++ ending ∧
    (∀ d ∈ notes, d.IsNote ∧ d.position.isSome) ∧ notes.Pairwise Diagnostic.NotAfter ∧
    ((∃ d, ending = [d] ∧ d.stage = .grammar ∧ ∀ note ∈ notes, note.NotAfter d) ∨
      (∀ d ∈ ending, ∃ fault, d.fault = .semantic fault ∧ fault.isJump) ∧
        ∃ targets, Sublist targets (gotoTargets tokens) ∧
          ending.map Diagnostic.position = targets.map fun target => some target.position)

section Results

variable {source : String} {tokens : List Token} {ds : Diagnostics}

/-- A parse that collects faults reports them in order. -/
theorem collected_in_order (scanned : tokenize source = .ok tokens)
    (failed : (parse tokens true).result = .error ds) : InOrder tokens ds.toList := by
  have found := result_parse_eq_error.mp failed
  have ends := Parse.programEnds (inLines_of_tokenize scanned) true
  have ended (d : Diagnostic) (env : Env) (eq : Parse.outcome tokens true = (.error d, env)) :
      d.stage = .grammar := by
    have gathers := Parse.gathers_program tokens
    rw [eq] at gathers
    cases gathers with
    | failed isGrammar => exact isGrammar
  have placed {line : Nat} {notes : List Diagnostic} (h : Parse.Noted tokens line notes) :
      ∀ d ∈ notes, d.IsNote ∧ d.position.isSome := by
    intro d mem
    obtain ⟨_, p, _, place, _⟩ := h.named d mem
    exact ⟨h.notes d mem, by rw [place]; rfl⟩
  generalize Parse.outcome tokens true = result at found ends ended
  cases ends with
  | @stopped d env stopped =>
    obtain ⟨line, noted⟩ := stopped.noted
    exact ⟨_, _, found.symm, placed noted, noted.ordered,
      .inl ⟨d, rfl, ended d env rfl, stopped.ordered⟩⟩
  | @unclosed d env _ noted _ unplaced =>
    refine ⟨_, _, found.symm, placed noted, noted.ordered, .inl ⟨d, rfl, ended d env rfl, ?_⟩⟩
    intro note _ p _ q place
    rw [unplaced] at place
    cases place
  | @checked line notes ds' jumps _ noted _ sublist faults eq =>
    refine ⟨notes, ds', found.symm.trans eq, placed noted, noted.ordered, .inr ⟨?_, ?_⟩⟩
    · intro d mem
      obtain ⟨_, _, isOf⟩ := exists_of_mem_forall₂ faults mem
      exact isOf.fault
    · obtain ⟨targets, sublist', same⟩ := sublist_map_iff.mp sublist
      refine ⟨targets, sublist', ?_⟩
      rw [Parse.positions_of_jumps faults, same, map_map]
      rfl

/-- Two jumps that lead nowhere, with a name that is not known between them. -/
theorem collected_in_order_jumps :
    ∃ tokens ds, tokenize "10 GOTO 9\n20 LET A = B\n30 GOTO 8\n" = .ok tokens ∧
      (parse tokens true).result = .error ds ∧
      ds.toList.map Diagnostic.position = [some ⟨2, 12⟩, some ⟨1, 9⟩, some ⟨3, 9⟩] ∧
      InOrder tokens ds.toList := by
  generalize hs : "10 GOTO 9\n20 LET A = B\n30 GOTO 8\n" = source
  have evaluated : ((tokenize source).toOption.map fun tokens =>
      (Parse.found (Parse.outcome tokens true)).map Diagnostic.position) =
        some [some ⟨2, 12⟩, some ⟨1, 9⟩, some ⟨3, 9⟩] := by
    subst hs
    decide +kernel
  obtain ⟨tokens, scanned, places⟩ := exists_ok_of_map evaluated
  cases found : Parse.found (Parse.outcome tokens true) with
  | nil =>
    rw [found] at places
    cases places
  | cons d others =>
    have failed := result_parse_eq_error.mpr (show _ = Diagnostics.toList ⟨d, others⟩ from found)
    rw [found] at places
    exact ⟨tokens, ⟨d, others⟩, scanned, failed, places, collected_in_order scanned failed⟩

/-- A diagnostic with a number and a place: the number is that of the statement on the line of the
place. If the line's own number is at fault, it is that of the statement before. -/
theorem diagnostics_name_statement (scanned : tokenize source = .ok tokens) (collect : Bool)
    (failed : (parse tokens collect).result = .error ds) :
    ∀ d ∈ ds.toList, ∀ number p, d.line = some number → d.position = some p →
      Names tokens number p.line ∨ d.IsOfLabel tokens number p := by
  have found := result_parse_eq_error.mp failed
  have ends := Parse.programEnds (inLines_of_tokenize scanned) collect
  have named {line : Nat} {notes : List Diagnostic} (h : Parse.Noted tokens line notes) (d : Diagnostic)
      (mem : d ∈ notes) (number : Nat) (p : Position) (eq : d.line = some number)
      (place : d.position = some p) : Names tokens number p.line := by
    obtain ⟨_, _, eq', place', names, _⟩ := h.named d mem
    cases eq.symm.trans eq'
    cases place.symm.trans place'
    exact names
  intro d mem number p eq place
  rw [← found] at mem
  generalize Parse.outcome tokens collect = result at mem ends
  cases ends with
  | @stopped last env stopped =>
    rcases mem_append.mp mem with mem | mem
    · obtain ⟨line, noted⟩ := stopped.noted
      exact .inl (named noted d mem number p eq place)
    · obtain ⟨_, _, eq', place', names⟩ := stopped.named
      rw [mem_singleton.mp mem] at eq place ⊢
      cases eq.symm.trans eq'
      cases place.symm.trans place'
      exact names
  | @unclosed last env line noted unnumbered =>
    rcases mem_append.mp mem with mem | mem
    · exact .inl (named noted d mem number p eq place)
    · rw [mem_singleton.mp mem, unnumbered] at eq
      cases eq
  | @checked line notes ds' jumps _ noted names _ faults eq' =>
    rw [eq'] at mem
    rcases mem_append.mp mem with mem | mem
    · exact .inl (named noted d mem number p eq place)
    · obtain ⟨jump, mem', isOf⟩ := exists_of_mem_forall₂ faults mem
      have names := names jump mem'
      cases eq.symm.trans isOf.number
      cases place.symm.trans isOf.place
      exact .inl names

/-- A name that is not known, and a number that is taken. -/
theorem diagnostics_name_statement_label :
    ∃ tokens ds, tokenize "10 LET A = B\n20 REM\n10 REM\n" = .ok tokens ∧
      (parse tokens true).result = .error ds ∧
      ds.toList.map Diagnostic.line = [some 10, some 20] ∧
      ds.toList.map Diagnostic.position = [some ⟨1, 12⟩, some ⟨3, 1⟩] ∧
      ∀ d ∈ ds.toList, ∀ number p, d.line = some number → d.position = some p →
        Names tokens number p.line ∨ d.IsOfLabel tokens number p := by
  generalize hs : "10 LET A = B\n20 REM\n10 REM\n" = source
  have evaluated : ((tokenize source).toOption.map fun tokens =>
      ((Parse.found (Parse.outcome tokens true)).map Diagnostic.line,
        (Parse.found (Parse.outcome tokens true)).map Diagnostic.position)) =
        some ([some 10, some 20], [some ⟨1, 12⟩, some ⟨3, 1⟩]) := by
    subst hs
    decide +kernel
  obtain ⟨tokens, scanned, shown⟩ := exists_ok_of_map evaluated
  cases found : Parse.found (Parse.outcome tokens true) with
  | nil =>
    rw [found] at shown
    cases shown
  | cons d others =>
    have failed := result_parse_eq_error.mpr (show _ = Diagnostics.toList ⟨d, others⟩ from found)
    rw [found] at shown
    exact ⟨tokens, ⟨d, others⟩, scanned, failed, congrArg Prod.fst shown, congrArg Prod.snd shown,
      diagnostics_name_statement scanned true failed⟩

/-- The number that is taken is reported on its own line, under the number of the line before. -/
theorem duplicate_names_previous :
    ∃ tokens ds, tokenize "10 REM\n20 REM\n10 REM\n" = .ok tokens ∧
      (parse tokens false).result = .error ds ∧ ds.toList.map Diagnostic.line = [some 20] ∧
      ds.toList.map Diagnostic.position = [some ⟨3, 1⟩] ∧ ¬ Names tokens 20 3 := by
  generalize hs : "10 REM\n20 REM\n10 REM\n" = source
  have evaluated : ((tokenize source).toOption.map fun tokens =>
      ((Parse.found (Parse.outcome tokens false)).map Diagnostic.line,
        (Parse.found (Parse.outcome tokens false)).map Diagnostic.position,
        (tokens.find? fun token => token.position.line == 3).map Token.text)) =
        some ([some 20], [some ⟨3, 1⟩], some "10") := by
    subst hs
    decide +kernel
  obtain ⟨tokens, scanned, shown⟩ := exists_ok_of_map evaluated
  have lines := congrArg Prod.fst shown
  have places := congrArg (fun shown => shown.2.1) shown
  have text := congrArg (fun shown => shown.2.2) shown
  dsimp only at lines places text
  cases found : Parse.found (Parse.outcome tokens false) with
  | nil =>
    rw [found] at lines
    cases lines
  | cons d others =>
    have failed := result_parse_eq_error.mpr (show _ = Diagnostics.toList ⟨d, others⟩ from found)
    rw [found] at lines places
    refine ⟨tokens, ⟨d, others⟩, scanned, failed, lines, places, ?_⟩
    rintro ⟨first, isFirst, _, isTwenty, _⟩
    have spelled : first.text = "10" := by simpa [isFirst] using text
    rw [spelled] at isTwenty
    revert isTwenty
    decide

end Results

end LineBasic
