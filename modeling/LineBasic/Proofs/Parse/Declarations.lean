import LineBasic.Proofs.Parse.Effects
import LineBasic.Proofs.Tree.Shape

/-!
Assignments and declarations, and what they do to the state of a parse.
-/

namespace LineBasic

open List

/-- From a place on the rest of a nested list is walked through. No brace is nested deeper than the
array has dimensions, and the values are for the elements at the indices `visits`. -/
inductive Place.Walks : Place → List Token → List (List Nat) → Prop
  | done {place : Place} : place.depth = 0 → Walks place [] []
  | enter {place : Place} {token : Token} {rest : List Token} {visits : List (List Nat)} :
      token.kind = .separator .leftBrace → place.enter.fits → Walks place.enter rest visits →
      Walks place (token :: rest) visits
  | leave {place : Place} {token : Token} {rest : List Token} {visits : List (List Nat)} :
      token.kind = .separator .rightBrace → place.depth ≠ 0 → Walks place.leave rest visits →
      Walks place (token :: rest) visits
  | comma {place : Place} {token : Token} {rest : List Token} {visits : List (List Nat)} :
      token.kind = .separator .comma → place.depth ≠ 0 → Walks place.advance rest visits →
      Walks place (token :: rest) visits
  | operator {place : Place} {token : Token} {operator : Operator} {rest : List Token}
      {visits : List (List Nat)} : token.kind = .operator operator → Walks place rest visits →
      Walks place (token :: rest) visits
  | literal {place : Place} {token : Token} {kind : LiteralKind} {rest : List Token}
      {visits : List (List Nat)} : token.kind = .literal kind → Walks place rest visits →
      Walks place (token :: rest) (place.index :: visits)

theorem Place.Walks.length {place : Place} {tokens : List Token} {visits : List (List Nat)}
    (h : place.Walks tokens visits) : visits.length = tokens.countP Token.isLiteral := by
  induction h with
  | done => rfl
  | enter isMark _ _ ih | leave isMark _ _ ih | comma isMark _ _ ih | operator isMark _ ih
  | literal isMark _ ih => simp [Token.isLiteral, isMark, ih]

theorem countP_firstValues {dimensions initializer : List Token}
    (isMany : Grammar.Many Grammar.Dimension dimensions)
    (isOptional : Grammar.Optional Grammar.Initializer initializer) :
    ((dimensions ++ initializer).dropWhile fun token =>
      token.kind ≠ .separator .leftBrace).countP Token.isLiteral =
        initializer.countP Token.isLiteral := by
  have noBrace : ∀ token ∈ dimensions, decide (token.kind ≠ .separator .leftBrace) = true := by
    induction isMany with
    | nil => simp
    | cons first _ ih =>
      cases first with
      | mk left size right => simpa [left, size, right] using ih
  rw [dropWhile_append_of_pos noBrace]
  cases isOptional with
  | none => rfl
  | some isInitializer =>
    cases isInitializer with
    | plain isBrace => simp [isBrace]
    | assigned isEqual isBrace => simp [isEqual, isBrace, Token.isLiteral]

theorem NameAction.ofStatement_dim {word name : Token} {dimensions initializer : List Token}
    (isWord : word.kind = .keyword .DIM) (isMany : Grammar.Many Grammar.Dimension dimensions)
    (isOptional : Grammar.Optional Grammar.Initializer initializer) :
    ofStatement (word :: name :: (dimensions ++ initializer)) =
      .declare name.text ::
        List.replicate (initializer.countP Token.isLiteral) (.use name.text) := by
  simp only [ofStatement, isWord, declares, countP_firstValues isMany isOptional]

namespace Parse.Env

variable {env env₁ env' : Env} {node : Node}

theorem settled_over {id line : Nat} {kind : NodeKind} {types : Types} {nodes : List Node}
    (settled : ∀ node ∈ nodes, node.Settled types) (operator : ∀ op type, kind ≠ .operator op type)
    (assign : kind ≠ .assign) (println : kind ≠ .println) (reads : kind ≠ .read) :
    Node.Settled types ⟨id, line, kind, nodes⟩ := by
  refine Node.settled_mk settled (.other operator assign println) ?_ ?_
  · cases kind <;> first | rfl | exact absurd rfl reads
  · cases kind <;> first | rfl | exact absurd rfl assign

end Parse.Env

namespace Check

open Parse (Env)

variable {env env₁ env₂ env' : Env} {n target value : Node} {nodes : List Node} {tokens : List Token}

theorem Yields.assignment_writes {name : Token}
    (expresses : env.Expresses tokens (nodes ++ [value]) env₁)
    (written : (Check.writtenVariable name nodes).Yields env₁ target env₂)
    (assigned : (Check.assignment name target value).Yields env₂ n env')
    (strict : env.collect = false) : env.Writes name.text (namesIn tokens) false n env' := by
  have quiet := expresses.quiet
  have strict₁ : env₁.collect = false := quiet.collect.trans strict
  obtain ⟨number, id, names, types, ⟨v, found⟩, rfl⟩ := written.writtenVariable_eq strict₁
  have strict₂ : env₂.collect = false :=
    ((keeps_writtenVariable _ _).same written).collect.trans strict₁
  obtain ⟨rfl, rfl, agree⟩ := assigned.assignment_eq strict₂ rfl
  have known : env₂.types = env.types := types.trans quiet.types
  have learned := @Env.types_learning env₂ number v (value.kind.typeBy? env₂.types) found
  rw [known] at agree
  constructor
  · refine ⟨number, (names.after quiet).alike
      ((Env.Alike.learning ..).trans (Env.Quiet.numbered _).alike), ?_⟩
    rw [expresses.mentions, quiet.line, Node.mentions_other rfl]
    simp [Node.mentions_reference]
  · refine .parent (@Node.Leads.of_settled env.types _ ?_) ?_ ?_
    · intro node mem
      simp only [mem_cons, not_mem_nil, or_false] at mem
      rcases mem with rfl | rfl
      · exact settled_reference fun index inside =>
          expresses.settled index (mem_append_left _ inside)
      · exact expresses.settled node (by simp)
    · refine ⟨by simp, ?_, by simp⟩
      intro target' value' _ eq
      cases eq
      exact agree
    · refine Eq.trans ?_ learned.symm
      rw [known]
      rfl

theorem Yields.assignment_builds {name : Token} (builds : env.Builds (nodes ++ [value]) env₁)
    (written : (Check.writtenVariable name nodes).Yields env₁ target env₂)
    (assigned : (Check.assignment name target value).Yields env₂ n env')
    (strict : env₁.collect = false) :
    ∃ number type, target.kind = .reference number ∧ target.children = nodes ∧
      env.Builds [target, value] env₂ ∧
      env' = { env₂.learning number type with size := env₂.size + 1 } ∧
      n = ⟨env₂.size, env₂.line, .assign, [target, value]⟩ := by
  have strict₂ : env₂.collect = false :=
    ((keeps_writtenVariable _ _).same written).collect.trans strict
  have built := written.writtenVariable_builds strict builds
  obtain ⟨number, id, _, _, _, rfl⟩ := written.writtenVariable_eq strict
  obtain ⟨later, isAssign, _⟩ := assigned.assignment_eq strict₂ rfl
  exact ⟨number, _, rfl, rfl, built, later, isAssign⟩

theorem Yields.indexLiterals_reads {index : List Nat}
    (h : (index.mapM fun i => Check.literalNode (toString i) .int).Yields env nodes env')
    (bound : ∀ i ∈ index, i < 0x80000000) :
    env.Reads [] nodes env' ∧
      nodes.map Node.kind = index.map fun i => .literal { text := toString i, type := .int } := by
  induction index generalizing env nodes with
  | nil =>
    rw [mapM_nil] at h
    obtain ⟨rfl, rfl⟩ := yields_pure.mp h
    exact ⟨.nil env, rfl⟩
  | cons i index ih =>
    rw [mapM_cons] at h
    obtain ⟨n, env₁, h₁, h⟩ := yields_bind.mp h
    obtain ⟨rest, env₂, h₂, h⟩ := yields_bind.mp h
    obtain ⟨rfl, rfl⟩ := yields_pure.mp h
    have value := Text.int32?_of_natural? (Text.natural?_toString i) (bound i (mem_cons_self ..))
    have first : env.Reads [] [n] env₁ := h₁.literalNode_reads rfl (fun _ => by simp) fun _ _ => by
      rw [value]
      rfl
    obtain ⟨later, kinds⟩ := ih h₂ fun i mem => bound i (mem_cons_of_mem _ mem)
    obtain ⟨rfl, _⟩ := yields_node.mp h₁
    exact ⟨first.append later, by rw [map_cons, kinds]; rfl⟩

theorem Yields.element_eq {number : Nat} {name token : Token} {index : List Nat}
    {kind : LiteralKind} {negative : Bool} {u : Unit}
    (h : (Check.element number name index token kind negative).Yields env u env')
    (strict : env.collect = false) (sees : env.Sees number) (noName : namesIn tokens = [])
    (quoted : AllQuoted tokens → kind = .text → negative = false ∧ IsQuoted token.text) :
    ∃ node env₁, env.Element number index node env₁ ∧ env' = env₁.attached node ∧
      env₁.Sees number ∧ (AllQuoted tokens → env.Attaches env') := by
  obtain ⟨value, env₁, h₁, h⟩ := yields_bind.mp h
  have reads := h₁.literal_reads noName quoted
  have isValue := reads.expresses strict
  have strict₁ : env₁.collect = false := isValue.quiet.collect.trans strict
  replace h := yields_get_bind.mp h
  obtain ⟨mem, v, found, size⟩ := sees
  rw [isValue.quiet.symbols] at h
  simp only [found, Option.map_some, Option.getD_some] at h
  split at h
  next => exact absurd h (not_yields_reportAt strict₁)
  next inside =>
    rw [Option.isNone_iff_eq_none] at inside
    obtain ⟨offset, inside⟩ := Option.ne_none_iff_exists'.mp inside
    obtain ⟨bytes, size⟩ := Option.isSome_iff_exists.mp size
    obtain ⟨count, small⟩ := Shape.size?_eq_some size
    replace h := yields_fresh_bind.mp h
    obtain ⟨indices, env₂, h₄, h⟩ := yields_bind.mp h
    obtain ⟨readsIndex, kinds⟩ := h₄.indexLiterals_reads fun i hi => by
      have := Shape.index_lt_count inside i hi
      have : maxFrameSize = 0x7fffffff := rfl
      have : wordSize = 4 := rfl
      rw [this] at count
      omega
    have isIndex := readsIndex.expresses strict₁
    have all : env.Quiet env₂ := (isValue.quiet.trans (.numbered env₁)).trans isIndex.quiet
    replace h := yields_get_bind.mp h
    obtain ⟨n, env₃, h₆, h⟩ := yields_bind.mp h
    obtain rfl := yields_attach.mp h
    obtain ⟨rfl, rfl, agree⟩ := h₆.assignment_eq (all.collect.trans strict) rfl
    have types₁ : ({ env₁ with size := env₁.size + 1 } : Env).types = env.types := isValue.quiet.types
    have found₂ : env₂.symbols[number]? = some v := all.symbols ▸ found
    have mem₂ : number ∈ env₂.visible := all.visible ▸ mem
    have noIndex : Node.mentionsAll indices = [] := by
      have := isIndex.mentions
      simpa [Env.resolved] using this.symm
    have noValue : Node.mentions value = [] := by
      have := isValue.mentions
      simpa [noName, Env.resolved] using this.symm
    rw [all.types] at agree
    obtain ⟨v', found', dims⟩ :=
      (Env.Grows.learning env₂ number (value.kind.typeBy? env₂.types)).tables.shapes number v found₂
    refine ⟨_, _, ⟨all.alike.trans ((Env.Alike.learning ..).trans (Env.Quiet.numbered _).alike), ?_,
      ?_, ⟨_, _, _, _, _, rfl, kinds⟩, v, v', found, found', dims, by rw [inside]; rfl⟩, rfl, ?_,
      fun quoted => ?_⟩
    · rw [Node.mentions_other rfl]
      simp [Node.mentions_reference, noIndex, noValue, all.line]
    · refine .parent (@Node.Leads.of_settled env.types _ ?_) ?_ ?_
      · intro node mem
        simp only [mem_cons, not_mem_nil, or_false] at mem
        rcases mem with rfl | rfl
        · exact settled_reference fun index inside => types₁ ▸ isIndex.settled index inside
        · exact isValue.settled node (by simp)
      · refine ⟨by simp, ?_, by simp⟩
        intro target' value' _ eq
        cases eq
        exact agree
      · have learned := @Env.types_learning env₂ number v (value.kind.typeBy? env₂.types) found₂
        refine Eq.trans ?_ learned.symm
        rw [all.types]
        rfl
    · have sees₂ : env₂.Sees number := ⟨mem₂, v, found₂, by rw [size]; rfl⟩
      exact sees₂.grow ((Env.Grows.learning ..).trans (.numbered _))
    · have built := reads.builds strict quoted
      have builtIndex := readsIndex.builds strict₁ (by simp [AllQuoted])
      have later := (Env.Grows.numbered env₁).trans builtIndex.grows
      have isTarget : env₂.IsExpression ⟨env₁.size, env₂.line, .reference number, indices⟩ := by
        refine .reference mem₂ found₂ ?_ builtIndex.isExpression
        have length := congrArg List.length kinds
        rw [length_map, length_map] at length
        rw [length, Shape.length_of_offset? inside]
      have builds : env.Builds [⟨env₁.size, env₂.line, .reference number, indices⟩, value] env₂ := by
        refine ⟨built.grows.trans later, ?_⟩
        intro node mem
        simp only [mem_cons, not_mem_nil, or_false] at mem
        rcases mem with rfl | rfl
        · exact isTarget
        · exact (built.isExpression node (by simp)).grow later
      exact builds.attaches rfl _

end Check

namespace Parse

/-- A check has been passed: nothing has changed but the faults that are noted. -/
structure Env.Passes (env env' : Env) : Prop where
  same : env.Same env'
  strict : env.collect = false → env = env'

theorem Env.Passes.refl (env : Env) : Passes env env :=
  ⟨.refl env, fun _ => rfl⟩

theorem Env.Passes.trans {env env₁ env' : Env} (first : Passes env env₁) (second : Passes env₁ env') :
    Passes env env' where
  same := first.same.trans second.same
  strict h := by
    obtain rfl := first.strict h
    exact second.strict h

theorem passes_report {env env' : Env} {d : Diagnostic} {u : Unit}
    (h : (Check.report d).Yields env u env') : env.Passes env' :=
  ⟨(Check.keeps_report d).same h, fun strict => absurd h (Check.not_yields_report strict)⟩

theorem passes_reportAt {env env' : Env} {token : Token} {fault : SemanticFault} {u : Unit}
    (h : (Check.reportAt token fault).Yields env u env') : env.Passes env' :=
  ⟨(Check.keeps_reportAt token fault).same h,
    fun strict => absurd h (Check.not_yields_reportAt strict)⟩

variable {s s₁ s' : TokenStream} {env env₁ env' : Env} {u : Unit} {name : Token}

theorem Yields.enterBrace_passes {place place' : Place}
    (h : (Parse.enterBrace name place).Yields s env place' s' env') :
    s = s' ∧ env.Passes env' ∧ place' = place.enter ∧ (env.collect = false → place.enter.fits) := by
  unfold Parse.enterBrace at h
  dsimp only at h
  split at h
  next =>
    obtain ⟨_, _, check, h⟩ := yields_lift_bind.mp h
    obtain ⟨rfl, rfl, rfl⟩ := yields_pure.mp h
    exact ⟨rfl, passes_reportAt check, rfl, fun strict =>
      absurd check (Check.not_yields_reportAt strict)⟩
  next fits =>
    obtain ⟨rfl, rfl, rfl⟩ := yields_pure.mp h
    exact ⟨rfl, .refl env, rfl, fun _ => by simpa using fits⟩

/-- From a place in a nested list on values have been read, and each of them has been assigned to the
element that its own place is for. -/
structure Env.Initializes (number : Nat) (place : Place) (env : Env) (tokens : List Token)
    (env' : Env) : Prop where
  same : env.Same env'
  elements : env.collect = false → env.Sees number → ∃ visits, place.Walks tokens visits ∧
    env.Elements number visits env'
  attaches : env.collect = false → env.Sees number → AllQuoted tokens → env.Attaches env'

namespace Env.Initializes

variable {number : Nat} {place inner : Place} {token : Token} {tokens : List Token}

theorem nil (number : Nat) (env : Env) (closed : place.depth = 0) :
    env.Initializes number place [] env :=
  ⟨.refl env, fun _ _ => ⟨[], .done closed, .nil env⟩, fun _ _ _ => .done (.refl env)⟩

theorem mark (h : env.Initializes number inner tokens env')
    (walks : env.collect = false → ∀ {visits}, inner.Walks tokens visits →
      place.Walks (token :: tokens) visits) :
    env.Initializes number place (token :: tokens) env' where
  same := h.same
  elements strict sees := by
    obtain ⟨visits, inside, elements⟩ := h.elements strict sees
    exact ⟨visits, walks strict inside, elements⟩
  attaches strict sees quoted :=
    h.attaches strict sees fun other mem => quoted other (mem_cons_of_mem _ mem)

theorem value {kind : LiteralKind} {negative : Bool}
    (check : (Check.element number name place.index token kind negative).Yields env u env₁)
    (h : env₁.Initializes number place tokens env') (isLiteral : token.kind = .literal kind)
    (sign : kind = .text → negative = false) :
    env.Initializes number place (token :: tokens) env' := by
  have noName : namesIn [token] = [] := by rw [namesIn_other (by simp [isLiteral]), namesIn_nil]
  have quoted : AllQuoted [token] → kind = .text → negative = false ∧ IsQuoted token.text :=
    fun quoted isText => ⟨sign isText, quoted token (mem_cons_self ..) (isText ▸ isLiteral)⟩
  refine ⟨((Check.keeps_element ..).same check).trans h.same, fun strict sees => ?_,
    fun strict sees all => ?_⟩
  all_goals
    obtain ⟨node, env₂, element, rfl, sees', attaches⟩ := check.element_eq strict sees noName quoted
    have strict' := (env₂.collect_attached node).trans (element.alike.collect.trans strict)
  · obtain ⟨visits, walks, elements⟩ := h.elements strict' (sees'.attached node)
    exact ⟨_, .literal isLiteral walks, .cons element elements⟩
  · obtain ⟨first, rest⟩ := forall_mem_cons.mp all
    exact (attaches (by simpa [AllQuoted] using first)).trans
      (h.attaches strict' (sees'.attached node) rest)

theorem after (h : env₁.Initializes number place tokens env') (passes : env.Passes env₁) :
    env.Initializes number place tokens env' where
  same := passes.same.trans h.same
  elements strict sees := by
    obtain rfl := passes.strict strict
    exact h.elements strict sees
  attaches strict sees quoted := by
    obtain rfl := passes.strict strict
    exact h.attaches strict sees quoted

end Env.Initializes

theorem Yields.elements_eq {number bound : Nat} {place : Place}
    (h : (Parse.elements number name bound place).Yields s env u s' env') :
    ∃ used, s.Takes used s' ∧ Grammar.Values place.depth used ∧
      env.Initializes number place used env' := by
  have closed : ∀ {s : TokenStream} {env : Env} {place : Place}, place.depth = 0 →
      (pure () : Parse Unit).Yields s env u s' env' →
      ∃ used, s.Takes used s' ∧ Grammar.Values place.depth used ∧
        env.Initializes number place used env' := by
    intro s env place none h
    obtain ⟨_, rfl, rfl⟩ := yields_pure.mp h
    exact ⟨[], takes_nil, none ▸ .done, .nil number env none⟩
  induction bound generalizing s env place with
  | zero =>
    unfold Parse.elements at h
    split at h
    next none => exact closed none h
    next => exact absurd h not_yields_failHere
  | succ bound ih =>
    unfold Parse.elements at h
    split at h
    next none => exact closed none h
    next some =>
      obtain ⟨depth, eq⟩ : ∃ depth, place.depth = depth + 1 := Nat.exists_eq_succ_of_ne_zero some
      obtain ⟨token, s₁, read, _, h⟩ := yields_advance_bind.mp h
      split at h
      next isBrace =>
        obtain ⟨_, _, _, h₂, h⟩ := yields_bind.mp h
        obtain ⟨rfl, passes, rfl, fits⟩ := h₂.enterBrace_passes
        obtain ⟨used, takes, values, rest⟩ := ih h
        have entered : place.enter.depth = depth + 2 := by simp [Place.enter, eq]
        exact ⟨token :: used, takes_cons read takes, eq ▸ .enter isBrace (entered ▸ values),
          (rest.after passes).mark fun strict => .enter isBrace (fits strict)⟩
      next isBrace =>
        obtain ⟨used, takes, values, rest⟩ := ih h
        have left : place.leave.depth = depth := by simp [Place.leave, eq]
        exact ⟨token :: used, takes_cons read takes, eq ▸ .leave isBrace (left ▸ values),
          rest.mark fun _ => .leave isBrace some⟩
      next isComma =>
        obtain ⟨used, takes, values, rest⟩ := ih h
        have same : place.advance.depth = depth + 1 := eq
        exact ⟨token :: used, takes_cons read takes, eq ▸ .comma isComma (same ▸ values),
          rest.mark fun _ => .comma isComma some⟩
      next isMinus =>
        obtain ⟨digits, s₂, read', _, h⟩ := yields_advance_bind.mp h
        have finish {kind : LiteralKind} {u₂ : Unit} {env₂ : Env} (isNumber : digits.kind = .literal kind)
            (notText : kind ≠ .text)
            (check : (Check.element number name place.index digits kind true).Yields env u₂ env₂)
            (h : (Parse.elements number name bound place).Yields s₂ env₂ u s' env') :
            ∃ used, s.Takes used s' ∧ Grammar.Values place.depth used ∧
              env.Initializes number place used env' := by
          obtain ⟨used, takes, values, rest⟩ := ih h
          have assigned : env.Initializes number place (digits :: used) env' :=
            .value check rest isNumber fun isText => absurd isText notText
          exact ⟨token :: digits :: used, takes_cons read (takes_cons read' takes),
            eq ▸ .negative isMinus isNumber notText (eq ▸ values),
            assigned.mark fun _ => .operator isMinus⟩
        split at h
        next isNumber =>
          obtain ⟨_, _, check, h⟩ := yields_lift_bind.mp h
          exact finish isNumber (by decide) check h
        next isNumber =>
          obtain ⟨_, _, check, h⟩ := yields_lift_bind.mp h
          exact finish isNumber (by decide) check h
        next =>
          obtain ⟨_, _, _, h₃, _⟩ := yields_bind.mp h
          exact absurd h₃ not_yields_failAt
      next kind isLiteral =>
        obtain ⟨_, env₂, check, h⟩ := yields_lift_bind.mp h
        obtain ⟨used, takes, values, rest⟩ := ih h
        exact ⟨token :: used, takes_cons read takes, eq ▸ .literal isLiteral (eq ▸ values),
          .value check rest isLiteral fun _ => rfl⟩
      next => exact absurd h not_yields_failAt

def Env.listStart (env : Env) (number : Nat) : Place :=
  .start ((env.symbols[number]?.map Variable.dims).getD [])

theorem Yields.initializer_eq {number : Nat} (h : (Parse.initializer number name).Yields s env u s' env') :
    ∃ brace used, s.Takes (brace :: used) s' ∧ brace.kind = .separator .leftBrace ∧
      Grammar.Values 1 used ∧ env.Initializes number (env.listStart number) (brace :: used) env' := by
  replace h := yields_getThe_bind.mp h
  obtain ⟨brace, s₁, read, _, isBrace, h⟩ := yields_expect_bind.mp h
  obtain ⟨place, _, _, h₃, h⟩ := yields_bind.mp h
  obtain ⟨rfl, passes, rfl, fits⟩ := h₃.enterBrace_passes
  replace h := yields_get_bind.mp h
  obtain ⟨used, takes, values, rest⟩ := h.elements_eq
  exact ⟨brace, used, takes_cons read takes, isBrace, values,
    (rest.after passes).mark fun strict => .enter isBrace (fits strict)⟩

theorem Yields.dimension_passes {found : Option Nat}
    (h : (Parse.dimension name).Yields s env found s' env') :
    found = none ∧ s = s' ∧ env = env' ∨ ∃ used size, found = some size ∧ s.Takes used s' ∧
      Grammar.Dimension used ∧ env.Passes env' ∧ (env.collect = false → 0 < size) := by
  obtain ⟨_, s₁, ⟨rfl, left, read, _, isLeft⟩ | ⟨rfl, rfl, _⟩, h⟩ := yields_accept_bind.mp h
  · obtain ⟨size, s₂, _, h₂, h⟩ := yields_bind.mp h
    obtain ⟨read₂, _, isSize, rfl⟩ := yields_expect.mp h₂
    obtain ⟨right, s₃, read₃, _, isRight, h⟩ := yields_expect_bind.mp h
    have takes : s.Takes [left, size, right] s₃ :=
      takes_cons read (takes_cons read₂ (takes_cons read₃ takes_nil))
    split at h
    next eq =>
      obtain ⟨rfl, rfl, rfl⟩ := yields_pure.mp h
      have positive := (Option.filter_eq_some_iff.mp eq).2
      simp only [decide_eq_true_eq] at positive
      exact .inr ⟨_, _, rfl, takes, .mk isLeft isSize isRight, .refl env, fun _ => positive.1⟩
    next =>
      obtain ⟨_, _, check, h⟩ := yields_lift_bind.mp h
      obtain ⟨rfl, rfl, rfl⟩ := yields_pure.mp h
      exact .inr ⟨_, _, rfl, takes, .mk isLeft isSize isRight, passes_reportAt check,
        fun strict => absurd check (Check.not_yields_reportAt strict)⟩
  · obtain ⟨rfl, rfl, rfl⟩ := yields_pure.mp h
    exact .inl ⟨rfl, rfl, rfl⟩

theorem Yields.dimensions_passes {dims : List Nat}
    (h : (many (Parse.dimension name)).Yields s env dims s' env') :
    ∃ used, s.Takes used s' ∧ Grammar.Many Grammar.Dimension used ∧ env.Passes env' ∧
      (env.collect = false → ∀ dim ∈ dims, 0 < dim) := by
  refine Yields.many_phrases (P := fun env _ dims env' => env.Passes env' ∧
    (env.collect = false → ∀ dim ∈ dims, 0 < dim)) (fun env => ⟨.refl env, by simp⟩) (fun h => ?_) h
  obtain none | ⟨used, size, found, takes, isDimension, passes, positive⟩ := h.dimension_passes
  · exact .inl none
  · refine .inr ⟨used, size, found, takes, isDimension, fun _ _ _ more => ?_⟩
    exact ⟨passes.trans more.1, fun strict => forall_mem_cons.mpr
      ⟨positive strict, more.2 (passes.same.collect.trans strict)⟩⟩

theorem Yields.firstValues_eq {number : Nat} (h : (firstValues number name).Yields s env u s' env') :
    ∃ used, s.Takes used s' ∧ Grammar.Optional Grammar.Initializer used ∧
      env.Initializes number (env.listStart number) used env' := by
  obtain ⟨assigned, s₁, accepted, h⟩ := yields_accept_bind.mp h
  replace h := yields_peekKind?_bind.mp h
  split at h
  next =>
    obtain ⟨brace, used, takes, isBrace, values, initializes⟩ := h.initializer_eq
    obtain ⟨rfl, equal, read, _, isEqual⟩ | ⟨rfl, rfl, _⟩ := accepted
    · exact ⟨equal :: brace :: used, takes_cons read takes,
        .some (.assigned isEqual isBrace values), initializes.mark fun _ => .operator isEqual⟩
    · exact ⟨brace :: used, takes, .some (.plain isBrace values), initializes⟩
  next none =>
    obtain ⟨_, rfl, rfl⟩ := yields_pure.mp h
    obtain ⟨rfl, _⟩ | ⟨rfl, rfl, _⟩ := accepted
    · simp at none
    · exact ⟨[], takes_nil, .none, .nil number env rfl⟩

/-- An array has been declared, and first values may have been read for it. -/
structure Env.Declares (env : Env) (name : String) (dims : List Nat) (tokens : List Token)
    (env' : Env) : Prop where
  isOptional : Grammar.Optional Grammar.Initializer tokens
  same : env.Same env'
  strict : env.collect = false → (Shape.size? dims).isSome ∧ ∃ log,
    { env.declared name dims with log }.Initializes env.symbols.size (.start dims) tokens env'

theorem Yields.sizedArray_eq {dims : List Nat} (h : (sizedArray name dims).Yields s env u s' env')
    (size : env.collect = false → (Shape.size? dims).isSome) :
    ∃ used, s.Takes used s' ∧ env.Declares name.text dims used env' := by
  obtain ⟨number, env₁, check, h⟩ := yields_lift_bind.mp h
  have declared := (Check.keeps_declare _ _).same check
  obtain ⟨rfl, rfl⟩ := Check.yields_declare.mp check
  have finish : ∀ {log : Array Event},
      (env.declared name.text dims).Same { env.declared name.text dims with log } →
      (firstValues env.symbols.size name).Yields s { env.declared name.text dims with log } u s' env' →
      ∃ used, s.Takes used s' ∧ env.Declares name.text dims used env' := by
    intro log same h
    obtain ⟨used, takes, isOptional, initializes⟩ := h.firstValues_eq
    have start : { env.declared name.text dims with log }.listStart env.symbols.size =
        .start dims := by
      simp [Env.listStart, Env.declared]
    rw [start] at initializes
    exact ⟨used, takes, isOptional, (declared.trans same).trans initializes.same,
      fun strict => ⟨size strict, log, initializes⟩⟩
  replace h := yields_getThe_bind.mp h
  dsimp only at h
  split at h
  next =>
    obtain ⟨_, _, check, h⟩ := yields_lift_bind.mp h
    obtain rfl := Check.yields_modify.mp check
    exact finish ((Check.keeps_record _).same check) h
  next => exact finish (.refl _) h

theorem Yields.namedArray_eq {dims : List Nat} (h : (namedArray name dims).Yields s env u s' env') :
    ∃ used, s.Takes used s' ∧ env.Declares name.text dims used env' := by
  unfold namedArray at h
  split at h
  next size => exact h.sizedArray_eq fun _ => size
  next =>
    obtain ⟨_, env₁, check, h⟩ := yields_lift_bind.mp h
    have passes := passes_reportAt check
    obtain ⟨used, takes, declares⟩ := h.sizedArray_eq fun strict =>
      absurd check (Check.not_yields_reportAt (passes.same.collect.symm.trans strict))
    exact ⟨used, takes, declares.isOptional, passes.same.trans declares.same,
      fun strict => absurd check (Check.not_yields_reportAt strict)⟩

theorem Yields.declaration_declares (h : Parse.declaration.Yields s env u s' env') :
    ∃ (name : Token) (dimensions initializer : List Token) (dims : List Nat) (env₁ : Env),
      s.Takes (name :: (dimensions ++ initializer)) s' ∧ name.kind = .identifier ∧
      Grammar.Many Grammar.Dimension dimensions ∧ env.Passes env₁ ∧
      env₁.Declares name.text dims initializer env' ∧ (env.collect = false →
        env.lookup? env.current name.text = none ∧ ∀ dim ∈ dims, 0 < dim) := by
  rw [declaration_eq] at h
  obtain ⟨name, s₁, read, _, isName, h⟩ := yields_expect_bind.mp h
  obtain ⟨dims, s₂, env₁, h₂, h⟩ := yields_bind.mp h
  obtain ⟨dimensions, takes, isMany, passes, positive⟩ := h₂.dimensions_passes
  replace h := yields_getThe_bind.mp h
  dsimp only at h
  split at h
  next =>
    obtain ⟨_, env₂, check, h⟩ := yields_lift_bind.mp h
    obtain ⟨initializer, takes', declares⟩ := h.namedArray_eq
    exact ⟨name, dimensions, initializer, dims, env₂, takes_cons read (takes_append takes takes'),
      isName, isMany, passes.trans (passes_reportAt check), declares, fun strict =>
        absurd check (Check.not_yields_reportAt (passes.same.collect.trans strict))⟩
  next absent =>
    obtain ⟨initializer, takes', declares⟩ := h.namedArray_eq
    refine ⟨name, dimensions, initializer, dims, env₁, takes_cons read (takes_append takes takes'),
      isName, isMany, passes, declares, fun strict => ⟨?_, positive strict⟩⟩
    obtain rfl := passes.strict strict
    simpa using absent

theorem Env.sees_declared (env : Env) (name : String) {dims : List Nat}
    (size : (Shape.size? dims).isSome) : (env.declared name dims).Sees env.symbols.size := by
  exact ⟨env.mem_visible_widen (mem_singleton_self _), _, Array.getElem?_push_size, size⟩

theorem Env.Completes.of_same {tokens : List Token} (same : env.Same env')
    (statement : ∀ opened, Grammar.Statement opened tokens opened)
    (does : env.collect = false → env.Does (NameAction.ofStatement tokens) env')
    (attaches : env.collect = false → AllQuoted tokens → env.Attaches env') :
    env.Completes tokens env' :=
  ⟨same.constructs ▸ statement env.constructs, same.collect, same.numbers, does,
    fun strict quoted => .attaches (attaches strict quoted)⟩

theorem Yields.declaration_completes {word : Token} (isWord : word.kind = .keyword .DIM)
    (h : Parse.declaration.Yields s env u s' env') :
    Env.CompletesBehind word s env s' env' := by
  obtain ⟨name, dimensions, initializer, dims, env₁, takes, isName, isMany, passes, declares, strictly⟩ :=
    h.declaration_declares
  have isOptional := declares.isOptional
  refine ⟨_, takes, .of_same (passes.same.trans declares.same)
    (fun _ => .dim isWord isName isMany isOptional) (fun strict => ?_) fun strict quoted => ?_⟩
  all_goals
    obtain rfl := passes.strict strict
    obtain ⟨absent, positive⟩ := strictly strict
    obtain ⟨size, log, initializes⟩ := declares.strict strict
    have grows := (Env.Grows.declares env name.text size positive).trans (.recorded _ log)
    have sees := (env.sees_declared name.text size).grow (.recorded _ log)
    have strict₁ := grows.collect.trans strict
  · obtain ⟨visits, walks, elements⟩ := initializes.elements strict₁ sees
    rw [NameAction.ofStatement_dim isWord isMany isOptional, ← walks.length]
    exact .dim absent (.recorded _ log) elements
  · have attaches := initializes.attaches strict₁ sees fun other mem =>
      quoted other (by simp [mem])
    exact attaches.grow grows

end Parse

end LineBasic
