import LineBasic.Proofs.Parse.Unfinished

/-!
How phrases of the source number the nodes they build, however faults are treated.
-/

namespace LineBasic

open List Node

/-- Each number from `low` to below `high` is there once. -/
structure Numbered (low high : Nat) (ids : List Nat) : Prop where
  le : low ≤ high
  perm : ids.Perm (List.range' low (high - low))

namespace Numbered

variable {low mid high : Nat} {ids others : List Nat}

theorem nil (low : Nat) : Numbered low low [] :=
  ⟨Nat.le_refl _, by simp⟩

theorem congr (h : Numbered low high ids) (moved : others.Perm ids) : Numbered low high others :=
  ⟨h.le, moved.trans h.perm⟩

theorem append (h : Numbered low mid ids) (h' : Numbered mid high others) :
    Numbered low high (ids ++ others) := by
  have le := h.le
  have le' := h'.le
  refine ⟨by omega, (h.perm.append h'.perm).trans ?_⟩
  have joined := @range'_append low (mid - low) (high - mid) 1
  rw [Nat.one_mul, show low + (mid - low) = mid by omega,
    show mid - low + (high - mid) = high - low by omega] at joined
  rw [joined]

theorem succ (h : Numbered low high ids) : Numbered low (high + 1) (ids ++ [high]) :=
  h.append ⟨Nat.le_succ _, by simp⟩

theorem range (h : low ≤ high) : Numbered low high (List.range' low (high - low)) :=
  ⟨h, .refl _⟩

theorem nodup (h : Numbered low high ids) : ids.Nodup :=
  h.perm.nodup_iff.mpr nodup_range'

theorem mem_iff (h : Numbered low high ids) {n : Nat} : n ∈ ids ↔ low ≤ n ∧ n < high := by
  have le := h.le
  rw [h.perm.mem_iff, mem_range'_1]
  omega

end Numbered

/-- The nodes that are no part of an expression or of a simple statement: scopes and jumps. -/
def NodeKind.isSpecial (kind : NodeKind) : Bool :=
  kind.vars?.isSome || kind.target?.isSome

/-- The number of a node, whether it is a scope or a jump, and its line. -/
abbrev Tag := Nat × Bool × Nat

def Node.tag (node : Node) : Tag :=
  (node.id, node.kind.isSpecial, node.line)

def Node.tags (node : Node) : List Tag :=
  node.nodes.map Node.tag

abbrev Node.tagsAll (nodes : List Node) : List Tag :=
  nodes.flatMap Node.tags

namespace Node

theorem tags_mk (id line : Nat) (kind : NodeKind) (children : List Node) :
    tags ⟨id, line, kind, children⟩ = (id, kind.isSpecial, line) :: tagsAll children := by
  have below (nodes : List Node) : (nodesAll nodes).map Node.tag = tagsAll nodes := by
    induction nodes with
    | nil => simp
    | cons node nodes ih => simp [ih, tags]
  rw [tags, nodes_eq, map_cons, below]
  rfl

theorem map_fst_tags (node : Node) : node.tags.map Prod.fst = node.ids := by
  rw [tags, map_map, ← map_id_nodes]
  rfl

theorem map_fst_tagsAll (nodes : List Node) : (tagsAll nodes).map Prod.fst = idsAll nodes := by
  induction nodes with
  | nil => simp
  | cons node nodes ih =>
    rw [tagsAll, flatMap_cons, map_append, map_fst_tags, ih, idsAll_cons]

theorem blocks_eq_nil {node : Node} (h : ∀ tag ∈ node.tags, tag.2.1 = false) : node.blocks = [] := by
  rw [blocks_eq_filter, filter_eq_nil_iff]
  intro inner mem
  have plain := h _ (mem_map_of_mem mem)
  simpa using (Bool.or_eq_false_iff.mp plain).1

theorem blocksAll_eq_nil_of_tags {nodes : List Node} (h : ∀ tag ∈ tagsAll nodes, tag.2.1 = false) :
    blocksAll nodes = [] := by
  induction nodes with
  | nil => simp
  | cons node nodes ih =>
    rw [blocksAll_cons, ih fun tag mem => h tag (mem_append_right _ mem),
      blocks_eq_nil fun tag mem => h tag (mem_append_left _ mem), append_nil]

end Node

namespace Parse.Env

/-- No block begins or ends and no statement is put in; at most numbers are given out. -/
structure Within (start env : Env) : Prop where
  collect : env.collect = start.collect
  size : start.size ≤ env.size
  line : env.line = start.line
  lines : env.lines = start.lines
  jumps : env.jumps = start.jumps
  ids : env.ids = start.ids
  chain : env.chain = start.chain
  chains : env.chains = start.chains
  sites : env.sites = start.sites
  leaving : env.leaving = start.leaving

theorem Within.refl (env : Env) : Within env env :=
  ⟨rfl, Nat.le_refl _, rfl, rfl, rfl, rfl, rfl, rfl, rfl, rfl⟩

theorem Within.trans {start mid env : Env} (first : Within start mid) (second : Within mid env) :
    Within start env where
  collect := second.collect.trans first.collect
  size := Nat.le_trans first.size second.size
  line := second.line.trans first.line
  lines := second.lines.trans first.lines
  jumps := second.jumps.trans first.jumps
  ids := second.ids.trans first.ids
  chain := second.chain.trans first.chain
  chains := second.chains.trans first.chains
  sites := second.sites.trans first.sites
  leaving := second.leaving.trans first.leaving

/-- Meanwhile nodes of the current line have been built, neither scopes nor jumps, and these have all
the numbers given out. -/
structure Built (start : Env) (here : Nat) (tags : List Tag) (env : Env) : Prop where
  within : start.Within env
  line : start.line = here
  numbered : Numbered start.size env.size (tags.map Prod.fst)
  plain : ∀ tag ∈ tags, tag.2 = (false, here)

theorem Built.nil (env : Env) : Built env env.line [] env :=
  ⟨.refl env, rfl, .nil _, by simp⟩

theorem Built.congr {start env : Env} {here : Nat} {tags tags' : List Tag}
    (h : Built start here tags env) (moved : tags'.Perm tags) : Built start here tags' env :=
  ⟨h.within, h.line, h.numbered.congr (moved.map Prod.fst),
    fun tag mem => h.plain tag (moved.mem_iff.mp mem)⟩

end Parse.Env

open Parse (Env)

variable {α β : Type} {here : Nat}

namespace Check

/-- Out of nodes that have been built a check builds others. If it fails, the nodes are lost. -/
def Builds (here : Nat) (check : Check α) (used : List Tag) (made : α → List Tag) : Prop :=
  ∀ (start : Env) (rest : List Tag) (env : Env), start.Built here (rest ++ used) env →
    match check.exec env with
    | (.ok a, env') => start.Built here (rest ++ made a) env'
    | (.error _, env') => start.Within env'

abbrev Rests (here : Nat) (check : Check α) : Prop :=
  Builds here check [] fun _ => []

namespace Builds

variable {check : Check α} {next : α → Check β} {used used' before : List Tag}
  {mid : α → List Tag} {made : β → List Tag}

theorem pure {b : β} (h : (made b).Perm used) : Builds here (pure b) used made :=
  fun _ rest _ built => built.congr (h.append_left rest)

theorem throw (d : Diagnostic) : Builds here (throw d : Check β) used made :=
  fun _ _ _ built => built.within

theorem bind (first : Builds here check used mid) (second : ∀ a, Builds here (next a) (mid a) made) :
    Builds here (check >>= next) used made := by
  intro start rest env built
  have h := first start rest env built
  rw [exec_bind]
  revert h
  rcases check.exec env with ⟨d | a, env₁⟩
  · exact id
  · exact second a start rest env₁

theorem congr {check : Check β} (h : Builds here check used made) (moved : used.Perm used') :
    Builds here check used' made :=
  fun start rest env built => h start rest env (built.congr (moved.append_left rest))

theorem after (first : Builds here check [] mid)
    (second : ∀ a, Builds here (next a) (before ++ mid a) made) :
    Builds here (check >>= next) before made := by
  refine bind (fun start rest env built => ?_) second
  have h := first start (rest ++ before) env (by rwa [append_nil])
  simp only [append_assoc] at h
  exact h

theorem quietly (first : Rests here check) (second : ∀ a, Builds here (next a) used made) :
    Builds here (check >>= next) used made :=
  after first fun a => by
    rw [append_nil]
    exact second a

theorem get_bind {next : Env → Check β} (h : ∀ env, Builds here (next env) used made) :
    Builds here (get >>= next) used made :=
  fun start rest env built => h env start rest env built

theorem line_bind {next : Env → Check β}
    (h : ∀ env : Env, env.line = here → Builds here (next env) used made) :
    Builds here (get >>= next) used made :=
  fun start rest env built => h env (built.within.line.trans built.line) start rest env built

theorem ite {p : Prop} [Decidable p] {yes no : Check β} (then_ : Builds here yes used made)
    (else_ : Builds here no used made) : Builds here (if p then yes else no) used made := by
  split
  · exact then_
  · exact else_

theorem beside (h : Builds here check used mid) (before after : List Tag) :
    Builds here check (before ++ used ++ after) fun a => before ++ mid a ++ after := by
  have moved (rest tags : List Tag) :
      (rest ++ (before ++ tags ++ after)).Perm (rest ++ before ++ after ++ tags) := by
    simp only [append_assoc]
    exact perm_append_comm.append_left _ |>.append_left _
  intro start rest env built
  have h := h start (rest ++ before ++ after) env (built.congr (moved rest used).symm)
  revert h
  rcases check.exec env with ⟨d | a, env₁⟩
  · exact id
  · exact fun built => built.congr (moved rest (mid a))

theorem modifyGet {f : Env → α × Env}
    (h : ∀ env : Env, env.Within (f env).2 ∧ (f env).2.size = env.size) :
    Rests here (modifyGet f : Check α) := by
  intro start rest env built
  refine ⟨built.within.trans (h env).1, built.line, ?_, built.plain⟩
  rw [(h env).2]
  exact built.numbered

theorem modify {f : Env → Env} (h : ∀ env : Env, env.Within (f env) ∧ (f env).size = env.size) :
    Rests here (modify f : Check Unit) :=
  modifyGet h

end Builds

theorem rests_record {event : Event} (other : event.leaving? = none) : Rests here (record event) := by
  refine .modify fun env => ⟨⟨rfl, Nat.le_refl _, rfl, rfl, rfl, rfl, rfl, rfl, rfl, ?_⟩, rfl⟩
  simp [Env.leaving, other]

theorem rests_pure (a : α) : Rests here (pure a : Check α) :=
  .pure (.refl _)

theorem rests_diagnose (fault : Fault) (position : Option Position) :
    Rests here (diagnose fault position) :=
  .get_bind fun _ => rests_pure _

theorem rests_report (d : Diagnostic) : Rests here (report d) := by
  refine .get_bind fun env => .ite (.quietly (rests_record rfl) fun _ => ?_) (.throw _)
  exact .modify fun _ => ⟨⟨rfl, Nat.le_refl _, rfl, rfl, rfl, rfl, rfl, rfl, rfl, rfl⟩, rfl⟩

theorem rests_reportAt (token : Token) (fault : SemanticFault) : Rests here (reportAt token fault) :=
  .quietly (rests_diagnose _ _) fun _ => rests_report _

theorem builds_failAt {used : List Tag} {made : α → List Tag} (token : Token)
    (fault : GrammarFault) : Builds here (failAt token fault : Check α) used made :=
  .quietly (rests_diagnose _ _) fun _ => .throw _

theorem rests_declare (name : String) (dims : List Nat) : Rests here (declare name dims) := by
  refine .modifyGet fun env => ?_
  cases env using Env.byBlocks <;> exact ⟨⟨rfl, Nat.le_refl _, rfl, rfl, rfl, rfl, rfl, rfl, rfl, rfl⟩, rfl⟩

theorem rests_setType (number : Nat) (type : Option ValueType) : Rests here (setType number type) :=
  .modify fun _ => ⟨⟨rfl, Nat.le_refl _, rfl, rfl, rfl, rfl, rfl, rfl, rfl, rfl⟩, rfl⟩

theorem builds_fresh : Builds here fresh [] fun id => [(id, false, here)] := by
  intro start rest env built
  rw [append_nil] at built
  refine ⟨built.within.trans ⟨rfl, Nat.le_succ _, rfl, rfl, rfl, rfl, rfl, rfl, rfl, rfl⟩, built.line, ?_, ?_⟩
  · rw [map_append]
    exact built.numbered.succ
  · intro tag mem
    rcases mem_append.mp mem with mem | mem
    · exact built.plain tag mem
    · rw [mem_singleton.mp mem]

theorem builds_node {kind : NodeKind} (plain : kind.isSpecial = false) (children : List Node) :
    Builds here (node kind children) (tagsAll children) tags := by
  refine .after builds_fresh fun id => .line_bind fun env line => .pure ?_
  rw [tags_mk, plain, line]
  exact (perm_append_singleton _ _).symm

theorem builds_literalNode (text : String) (type : ValueType) :
    Builds here (literalNode text type) [] tags := by
  refine .ite (.get_bind fun env => .quietly ?_ fun _ => builds_node rfl []) (builds_node rfl [])
  exact .modify fun _ => ⟨⟨rfl, Nat.le_refl _, rfl, rfl, rfl, rfl, rfl, rfl, rfl, rfl⟩, rfl⟩

theorem builds_literal (token : Token) (kind : LiteralKind) (negative : Bool) :
    Builds here (literal token kind negative) [] tags :=
  .ite (.quietly (rests_reportAt _ _) fun _ => builds_literalNode _ _) (builds_literalNode _ _)

theorem rests_operationType (token : Token) (lhs rhs : Node) :
    Rests here (operationType token lhs rhs) := by
  refine .get_bind fun env => ?_
  split
  next =>
    split
    next => exact rests_pure _
    next => exact .quietly (rests_reportAt _ _) fun _ => rests_pure _
  next => exact rests_pure _
  next => exact rests_pure _
  next => exact rests_pure _

theorem builds_binary (operator : Operator) (token : Token) (lhs rhs : Node) :
    Builds here (binary operator token lhs rhs) (lhs.tags ++ rhs.tags) tags := by
  refine .after builds_fresh fun id => .quietly (rests_operationType _ _ _) fun type =>
    .line_bind fun env line => .pure ?_
  rw [tags_mk, line]
  simp only [tagsAll, flatMap_cons, flatMap_nil, append_nil]
  exact (perm_append_singleton _ _).symm

theorem builds_negated (minus : Token) (operand : Node) :
    Builds here (negated minus operand) operand.tags tags := by
  refine .after builds_fresh fun id => .after (builds_literalNode _ _) fun minusOne => ?_
  refine .quietly (rests_operationType _ _ _) fun type => .line_bind fun env line => .pure ?_
  rw [tags_mk, line]
  simp only [tagsAll, flatMap_cons, flatMap_nil, append_nil, append_assoc]
  exact perm_middle.symm

abbrev tailTags (rest : List Tail) : List Tag :=
  rest.flatMap fun tail => tail.2.2.tags

theorem builds_joinFactors (left : Node) (rest : List Tail) :
    Builds here (joinFactors left rest) (left.tags ++ tailTags rest)
      fun joined => joined.1.tags ++ tailTags joined.2 := by
  induction rest generalizing left with
  | nil => exact .pure (.refl _)
  | cons tail rest ih =>
    obtain ⟨operator, token, right⟩ := tail
    rw [tailTags, flatMap_cons, ← append_assoc]
    refine .ite ?_ ?_
    · have joined := (@builds_binary here operator token left right).beside [] (tailTags rest)
      exact .bind joined fun product => ih product
    · have joined := (ih right).beside left.tags []
      simp only [append_nil, ← append_assoc] at joined
      exact .bind joined fun joined => .pure (.of_eq (by simp))

theorem builds_joinTerms (left : Node) (rest : List Tail) :
    Builds here (joinTerms left rest) (left.tags ++ tailTags rest) tags := by
  induction rest generalizing left with
  | nil => exact .pure (.of_eq (by simp))
  | cons tail rest ih =>
    obtain ⟨operator, token, right⟩ := tail
    rw [tailTags, flatMap_cons, ← append_assoc]
    have joined := (@builds_binary here operator token left right).beside [] (tailTags rest)
    exact .bind joined fun sum => ih sum

theorem builds_join (first : Node) (rest : List Tail) :
    Builds here (join first rest) (first.tags ++ tailTags rest) tags :=
  .bind (builds_joinFactors _ _) fun _ => builds_joinTerms _ _

theorem rests_checkIndex (bracket : Token) (index : Node) : Rests here (checkIndex bracket index) := by
  refine .get_bind fun env => ?_
  split
  next => exact rests_reportAt _ _
  next => exact rests_reportAt _ _
  next => exact rests_pure _

theorem builds_reference (number : Nat) (name : Token) (indices : List Node) :
    Builds here (reference number name indices) (tagsAll indices) tags :=
  .get_bind fun _ => .ite (.quietly (rests_reportAt _ _) fun _ => builds_node rfl _)
    (builds_node rfl _)

theorem builds_readVariable (name : Token) (indices : List Node) :
    Builds here (readVariable name indices) (tagsAll indices) tags := by
  refine .get_bind fun env => ?_
  split
  next => exact builds_reference _ _ _
  next =>
    exact .quietly (rests_reportAt _ _) fun _ => .quietly (rests_declare _ _) fun _ =>
      builds_reference _ _ _

theorem builds_writtenVariable (name : Token) (indices : List Node) :
    Builds here (writtenVariable name indices) (tagsAll indices) tags := by
  refine .get_bind fun env => ?_
  split
  next => exact builds_reference _ _ _
  next =>
    exact .quietly (rests_declare _ _) fun _ => .get_bind fun _ =>
      .quietly (rests_record rfl) fun _ => builds_reference _ _ _

theorem builds_assignment (name : Token) (target value : Node) :
    Builds here (assignment name target value) (target.tags ++ value.tags) tags := by
  have built : Builds here (node .assign [target, value]) (target.tags ++ value.tags) tags :=
    (builds_node rfl [target, value]).congr (.of_eq (by simp))
  unfold assignment
  dsimp only
  split
  next =>
    refine .get_bind fun env => ?_
    split
    next => exact .quietly (rests_setType _ _) fun _ => built
    next => exact .ite (.quietly (rests_reportAt _ _) fun _ => built) built
    next => exact built
  next => exact built

end Check

namespace Parse

/-- Out of nodes that have been built a parser builds others, whatever tokens it reads. -/
def Builds (here : Nat) (parser : Parse α) (used : List Tag) (made : α → List Tag) : Prop :=
  ∀ s, Check.Builds here (parser.run s) used fun read => made read.1

abbrev Rests (here : Nat) (parser : Parse α) : Prop :=
  Builds here parser [] fun _ => []

namespace Builds

variable {parser : Parse α} {next : α → Parse β} {used before : List Tag}
  {mid : α → List Tag} {made : β → List Tag}

theorem pure {b : β} (h : (made b).Perm used) : Builds here (pure b) used made :=
  fun _ => Check.Builds.pure h

theorem throw (d : Diagnostic) : Builds here (throw d : Parse β) used made :=
  fun _ => Check.Builds.throw d

theorem lift {check : Check β} (h : Check.Builds here check used made) :
    Builds here (liftM check) used made :=
  fun _ => .bind h fun _ => .pure (.refl _)

theorem bind (first : Builds here parser used mid) (second : ∀ a, Builds here (next a) (mid a) made) :
    Builds here (parser >>= next) used made :=
  fun s => .bind (first s) fun read => second read.1 read.2

theorem after (first : Builds here parser [] mid)
    (second : ∀ a, Builds here (next a) (before ++ mid a) made) :
    Builds here (parser >>= next) before made :=
  fun s => .after (first s) fun read => second read.1 read.2

theorem quietly (first : Rests here parser) (second : ∀ a, Builds here (next a) used made) :
    Builds here (parser >>= next) used made :=
  fun s => .quietly (first s) fun read => second read.1 read.2

theorem get_bind {next : TokenStream → Parse β} (h : ∀ s, Builds here (next s) used made) :
    Builds here (get >>= next) used made :=
  fun s => h s s

theorem getThe_bind {next : Env → Parse β} (h : ∀ env, Builds here (next env) used made) :
    Builds here (getThe Env >>= next) used made := by
  intro s
  show Check.Builds here (MonadState.get >>= fun env => (next env).run s) used _
  exact .get_bind fun env => h env s

theorem ite {p : Prop} [Decidable p] {yes no : Parse β} (then_ : Builds here yes used made)
    (else_ : Builds here no used made) : Builds here (if p then yes else no) used made := by
  split
  · exact then_
  · exact else_

end Builds

theorem rests_pure (a : α) : Rests here (pure a : Parse α) :=
  .pure (.refl _)

theorem rests_set (s : TokenStream) : Rests here (set s) :=
  fun _ => Check.rests_pure _

theorem builds_failHere {used : List Tag} {made : α → List Tag}
    (fault : GrammarFault) : Builds here (failHere fault : Parse α) used made :=
  .get_bind fun _ => .quietly (.lift (Check.rests_diagnose _ _)) fun _ => .throw _

theorem rests_advance : Rests here advance := by
  refine .get_bind fun s => ?_
  split
  next => exact .quietly (rests_set _) fun _ => rests_pure _
  next => exact builds_failHere _

theorem rests_expect (kind : TokenKind) : Rests here (expect kind) := by
  refine .get_bind fun s => ?_
  split
  next => exact .quietly (rests_set _) fun _ => rests_pure _
  next => exact .lift (Check.builds_failAt _ _)
  next => exact builds_failHere _

theorem rests_accept? (kind : TokenKind) : Rests here (accept? kind) := by
  refine .get_bind fun s => ?_
  split
  next => exact .quietly (rests_set _) fun _ => rests_pure _
  next => exact rests_pure _

theorem rests_accept (kind : TokenKind) : Rests here (accept kind) :=
  .quietly (rests_accept? kind) fun _ => rests_pure _

theorem rests_peekKind? : Rests here peekKind? :=
  .get_bind fun _ => rests_pure _

/-- What all items have built has been built one after the other. -/
theorem builds_many {item : Parse (Option α)} {made : α → List Tag}
    (h : Builds here item [] fun found => found.elim [] made) :
    Builds here (many item) [] fun found => found.flatMap made := by
  refine .get_bind fun s => ?_
  generalize s.rest.length = bound
  induction bound with
  | zero => exact .pure (.refl _)
  | succ bound ih =>
    refine .bind h fun found => ?_
    cases found with
    | none => exact .pure (.refl _)
    | some a => exact .after ih fun _ => .pure (.refl _)

theorem rests_many {item : Parse (Option α)} (h : Rests here item) : Rests here (many item) := by
  refine .get_bind fun s => ?_
  generalize s.rest.length = bound
  induction bound with
  | zero => exact rests_pure _
  | succ bound ih =>
    refine .quietly h fun found => ?_
    split
    next => exact rests_pure _
    next => exact .quietly ih fun _ => rests_pure _

section Expressions

variable {expression : Parse Node}

section

variable (h : Builds here expression [] tags)

include h

theorem builds_index :
    Builds here (index expression) [] fun found => found.elim [] tags := by
  refine .quietly (rests_accept? _) fun found => ?_
  split
  next => exact .pure (.refl _)
  next =>
    exact .bind h fun _ => .quietly (rests_expect _) fun _ =>
      .quietly (.lift (Check.rests_checkIndex _ _)) fun _ => .pure (.refl _)

theorem builds_indices :
    Builds here (indices expression) [] tagsAll :=
  builds_many (builds_index h)

theorem builds_variableRead (name : Token) :
    Builds here (variableRead expression name) [] tags :=
  .bind (builds_indices h) fun _ => .lift (Check.builds_readVariable _ _)

theorem builds_parenthesized :
    Builds here (parenthesized expression) [] tags :=
  .bind h fun _ => .quietly (rests_expect _) fun _ => .pure (.refl _)

theorem builds_negation (minus : Token) :
    Builds here (negation expression minus) [] tags := by
  refine .quietly rests_advance fun token => ?_
  split
  next => exact .lift (Check.builds_literal _ _ _)
  next => exact .lift (Check.builds_literal _ _ _)
  next => exact .bind (builds_variableRead h _) fun _ => .lift (Check.builds_negated _ _)
  next => exact .bind (builds_parenthesized h) fun _ => .lift (Check.builds_negated _ _)
  next => exact .lift (Check.builds_failAt _ _)

theorem builds_operand : Builds here (operand expression) [] tags := by
  refine .quietly rests_advance fun token => ?_
  split
  next => exact builds_negation h _
  next => exact builds_parenthesized h
  next => exact builds_variableRead h _
  next => exact .lift (Check.builds_literal _ _ _)
  next => exact .lift (Check.builds_failAt _ _)

theorem builds_tail :
    Builds here (tail expression) [] fun found => found.elim [] fun tail => tail.2.2.tags := by
  refine .quietly rests_peekKind? fun kind => ?_
  split
  next =>
    refine .ite ?_ (.pure (.refl _))
    exact .quietly rests_advance fun _ => .bind (builds_operand h) fun _ => .pure (.refl _)
  next => exact .pure (.refl _)

theorem builds_expressionOver :
    Builds here (expressionOver expression) [] tags :=
  .bind (builds_operand h) fun _ => .after (builds_many (builds_tail h)) fun _ =>
    .lift (Check.builds_join _ _)

end

end Expressions

theorem builds_expressionWithin (depth : Nat) : Builds here (expressionWithin depth) [] tags := by
  induction depth with
  | zero => exact builds_failHere _
  | succ depth ih => exact builds_expressionOver ih

theorem builds_expression : Builds here expression [] tags :=
  .get_bind fun _ => builds_expressionWithin _

theorem builds_format (statement : Keyword) : Builds here (format statement) [] tags := by
  refine .quietly rests_peekKind? fun kind => .ite ?_ ?_
  · exact .quietly rests_advance fun _ => .lift (Check.builds_literal _ _ _)
  · exact .get_bind fun _ => .quietly (.lift (Check.rests_diagnose _ _)) fun _ =>
      .quietly (.lift (Check.rests_report _)) fun _ => builds_expression

theorem builds_readTarget : Builds here readTarget [] fun found => found.elim [] tags := by
  refine .quietly (rests_accept _) fun _ => .ite ?_ (.pure (.refl _))
  refine .quietly (rests_expect _) fun _ => .bind (builds_indices builds_expression) fun _ => ?_
  refine .bind (.lift (Check.builds_writtenVariable _ _)) fun target => ?_
  dsimp only
  split
  next =>
    refine .getThe_bind fun env => ?_
    exact .ite (.quietly (.lift (Check.rests_setType _ _)) fun _ => .pure (.refl _))
      (.pure (.refl _))
  next => exact .pure (.refl _)

theorem rests_lineNumber (token : Token) : Rests here (lineNumber token) := by
  unfold lineNumber
  split
  next => exact rests_pure _
  next => exact .lift (Check.builds_failAt _ _)

theorem rests_dimension (name : Token) : Rests here (dimension name) := by
  refine .quietly (rests_accept _) fun found => .ite ?_ (rests_pure _)
  refine .quietly (rests_expect _) fun size => .quietly (rests_expect _) fun _ => ?_
  split
  next => exact rests_pure _
  next => exact .quietly (.lift (Check.rests_reportAt _ _)) fun _ => rests_pure _

end Parse

end LineBasic
