import LineBasic.Compile
import LineBasic.Proofs.Parse.Moves

/-!
The stack of blocks along a parse, however faults are treated. Every state remembers the stacks
before it: they are the chains of the scopes of its tree, so a walk from parent to parent finds out
which blocks were open when a block was the innermost one.
-/

namespace LineBasic

open List Node

namespace Parse

/-- The states before and after each statement, up to the end of the tokens or to a statement that
cannot be read. -/
def momentsFrom : Nat → TokenStream → Env → List Env
  | 0, _, env => [env]
  | bound + 1, s, env =>
    if s.atEnd then [env]
    else
      env :: match statement.exec s env with
        | (.ok (_, s'), env') => momentsFrom bound s' env'
        | (.error _, env') => [env']

/-- The states of the parse of a list of tokens, each one between two statements. -/
def moments (tokens : List Token) (collect : Bool) : List Env :=
  momentsFrom tokens.length (.ofTokens tokens) { collect }

theorem getLast?_momentsFrom (bound : Nat) (s : TokenStream) (env : Env) :
    (momentsFrom bound s env).getLast? = some ((statements bound).exec s env).2 := by
  induction bound generalizing s env with
  | zero => rfl
  | succ bound ih =>
    have eq : (statements (bound + 1)).exec s env = if s.atEnd then (.ok ((), s), env)
        else (statement >>= fun _ => statements bound).exec s env := by
      rw [statements, exec_bind, exec_get]
      dsimp only
      split <;> rfl
    rw [momentsFrom, eq]
    split
    · rfl
    · rw [exec_bind]
      rcases statement.exec s env with ⟨d | ⟨⟨⟩, s'⟩, env'⟩
      · rfl
      · have nonempty : momentsFrom bound s' env' ≠ [] := by
          intro none
          have last := ih s' env'
          rw [none] at last
          cases last
        rw [getLast?_cons_of_ne_nil nonempty]
        exact ih s' env'

namespace Env

variable {start env : Env} {past : List Env} {lost : List Nat}

/-- Of the stack a part that is not empty is kept, and at most one block is new. -/
theorem Turn.cases (turn : Turn start env) : ∃ rest, rest ≠ [] ∧ rest <:+ start.chain ∧
    (env.chain = rest ∧ env.chains = start.chains ∨ ∃ id, start.size ≤ id ∧
      env.chain = id :: rest ∧ env.chains = start.chains ++ [env.chain]) := by
  have nonempty (env : Env) : env.chain ≠ [] := by
    intro none
    have head := head_chain env
    rw [none] at head
    cases head
  cases turn with
  | stay same same' => exact ⟨_, nonempty start, suffix_refl _, .inl ⟨same, same'⟩⟩
  | leave id same same' =>
    exact ⟨_, nonempty env, same ▸ suffix_cons .., .inl ⟨rfl, same'⟩⟩
  | enter id bound same same' =>
    exact ⟨_, nonempty start, suffix_refl _, .inr ⟨id, bound, same, same'⟩⟩
  | swap id old rest bound inner same same' same'' =>
    exact ⟨rest, inner, same ▸ suffix_cons .., .inr ⟨id, bound, same', same''⟩⟩

/-- The scopes of the tree are the blocks that have been innermost, each in the chain that was the
stack then. -/
structure Remembers (past : List Env) (env : Env) : Prop where
  numbered : ∃ lost, Numbered 0 env.size (env.ids ++ lost)
  bottom : env.chain.getLast? = some 0
  rising : env.chain.Pairwise (· > ·)
  now : env.chain ∈ env.chains
  known : ∀ chain, chain ∈ env.chains ↔ ∃ moment ∈ past, moment.chain = chain
  lower : ∀ chain ∈ env.chains, ∀ rest, rest ≠ [] → rest <:+ chain → rest ∈ env.chains
  lines : ∀ line block, (line, some block) ∈ env.lines →
    ∃ chain ∈ env.chains, chain.head? = some block
  jumps : ∀ jump ∈ env.jumps, jump.scopes ∈ env.chains

theorem chains_start (collect : Bool) : ({ collect } : Env).chains = [[0]] := by
  simp [chains, stackChains]

theorem remembers_start (collect : Bool) : Remembers [{ collect }] { collect } where
  numbered := ⟨[], (Numbered.nil 0).succ⟩
  bottom := rfl
  rising := pairwise_singleton ..
  now := mem_singleton_self _
  known chain := by
    rw [chains_start]
    simp [Env.chain, Env.scopes, eq_comm]
  lower chain mem rest nonempty suffix := by
    rw [chains_start] at mem ⊢
    cases mem_singleton.mp mem
    rcases suffix_cons_iff.mp suffix with rfl | suffix
    · exact mem
    · exact absurd (suffix_nil.mp suffix) nonempty
  lines _ _ mem := by cases mem
  jumps _ mem := by simp at mem

namespace Remembers

theorem lt_size (h : Remembers past env) : ∀ n ∈ env.ids, n < env.size := by
  obtain ⟨lost, numbered⟩ := h.numbered
  exact fun n mem => (numbered.mem_iff.mp (mem_append_left _ mem)).2

theorem once (h : Remembers past env) : env.ids.Nodup := by
  obtain ⟨lost, numbered⟩ := h.numbered
  exact numbered.nodup.sublist (sublist_append_left ..)

/-- What has been remembered is remembered after the next statement, and so is the new stack. -/
theorem step (h : Remembers past start) (moves : Moves start env lost) :
    Remembers (past ++ [env]) env := by
  obtain ⟨rest, nonempty, suffix, turn⟩ := moves.turn.cases
  -- What is kept of the stack was the whole stack before its upper blocks were opened.
  have kept : rest ∈ start.chains := h.lower _ h.now rest nonempty suffix
  have chains : ∀ chain, chain ∈ env.chains ↔ chain ∈ start.chains ∨ chain = env.chain := by
    intro chain
    rcases turn with ⟨same, same'⟩ | ⟨_, _, _, same'⟩
    · rw [same', same]
      refine ⟨.inl, ?_⟩
      rintro (mem | rfl)
      · exact mem
      · exact kept
    · rw [same', mem_append, mem_singleton]
  obtain ⟨added, moved, numbered⟩ := moves.numbered
  obtain ⟨lost₀, numbered₀⟩ := h.numbered
  obtain ⟨before, eq⟩ := suffix
  have bottom : rest.getLast? = some 0 := by
    rw [← h.bottom, ← eq, getLast?_append_of_ne_nil _ nonempty]
  have rising : rest.Pairwise (· > ·) := h.rising.sublist (eq ▸ sublist_append_right ..)
  constructor
  case numbered =>
    refine ⟨lost₀ ++ lost, (numbered₀.append numbered).congr ?_⟩
    refine (moved.append_right _).trans ?_
    simp only [append_assoc]
    exact (perm_append_comm_assoc ..).append_left _
  case bottom =>
    rcases turn with ⟨same, -⟩ | ⟨id, -, same, -⟩
    · rw [same, bottom]
    · rw [same, getLast?_cons_of_ne_nil nonempty, bottom]
  case rising =>
    rcases turn with ⟨same, -⟩ | ⟨id, isNew, same, -⟩
    · rw [same]
      exact rising
    · rw [same]
      refine pairwise_cons.mpr ⟨fun n mem => ?_, rising⟩
      have open_ : n ∈ start.chain := eq ▸ mem_append_right _ mem
      exact Nat.lt_of_lt_of_le (h.lt_size n (stackChain_subset open_)) isNew
  case now => exact (chains _).mpr (.inr rfl)
  case known =>
    intro chain
    rw [chains, h.known]
    simp only [mem_append, mem_singleton]
    grind
  case lower =>
    intro chain mem part nonempty' suffix
    rcases (chains chain).mp mem with mem | rfl
    · exact (chains part).mpr (.inl (h.lower chain mem part nonempty' suffix))
    · have inside {part : List Nat} (nonempty : part ≠ []) (suffix : part <:+ rest) :
          part ∈ start.chains := h.lower rest kept part nonempty suffix
      rcases turn with ⟨same, -⟩ | ⟨id, -, same, -⟩
      · exact (chains part).mpr (.inl (inside nonempty' (same ▸ suffix)))
      · rw [same] at suffix
        rcases suffix_cons_iff.mp suffix with rfl | suffix
        · exact (chains _).mpr (.inr same.symm)
        · exact (chains part).mpr (.inl (inside nonempty' suffix))
  case lines =>
    intro line block mem
    rcases moves.lines line block mem with mem | head
    · obtain ⟨chain, mem, head⟩ := h.lines line block mem
      exact ⟨chain, (chains chain).mpr (.inl mem), head⟩
    · exact ⟨start.chain, (chains _).mpr (.inl h.now), head⟩
  case jumps =>
    intro jump mem
    rcases moves.jumps jump mem with mem | scopes
    · exact (chains _).mpr (.inl (h.jumps jump mem))
    · exact (chains _).mpr (.inl (scopes ▸ h.now))

theorem run {bound : Nat} {s : TokenStream} {earlier later : List Env} {now : Env}
    (h : Remembers (past ++ [start]) start)
    (eq : momentsFrom bound s start = earlier ++ now :: later) :
    Remembers (past ++ earlier ++ [now]) now := by
  -- No statement follows: the tokens are used up, or a statement has failed.
  have stops {past : List Env} {env : Env} {earlier : List Env} (h : Remembers (past ++ [env]) env)
      (eq : [env] = earlier ++ now :: later) : Remembers (past ++ earlier ++ [now]) now := by
    obtain ⟨rfl, single⟩ := append_eq_singleton_iff.mp eq.symm |>.resolve_right (by simp)
    cases single
    rwa [append_nil]
  induction bound generalizing past s start earlier with
  | zero => exact stops h eq
  | succ bound ih =>
    rw [momentsFrom] at eq
    split at eq
    · exact stops h eq
    · rcases cons_eq_append_iff.mp eq with ⟨rfl, first⟩ | ⟨earlier, rfl, rest⟩
      · cases first
        rwa [append_nil]
      · have arrives := steps_statement s start start (.nil start)
        rw [append_cons past start earlier]
        clear eq
        revert arrives rest
        show _ → Check.Arrives Moves start (statement.exec s start) → _
        rcases statement.exec s start with ⟨d | ⟨⟨⟩, s'⟩, env⟩
        · rintro eq ⟨lost, moves⟩
          exact stops (h.step moves) eq
        · rintro eq ⟨lost, moves, -⟩
          exact ih (h.step moves) eq

end Remembers

theorem isScope_tree {number : Nat} :
    env.tree.IsScope number ↔ ∃ chain ∈ env.chains, chain.head? = some number := by
  rw [isScope_iff, chains_tree]

def arena (env : Env) : Arena :=
  env.tree.links none

theorem mem_arena {opening : Opening} {block : Block} {outer : List OpenBlock}
    (eq : env.blocks = ⟨opening, block⟩ :: outer) :
    ∃ lower, (block.id, block.node.link (some opening.id)) ∈ env.arena ∧
      (opening.id, (opening.close block.node).link (some lower)) ∈ env.arena := by
  obtain ⟨lower, around⟩ : ∃ lower, (stackChain env.program outer).head? = some lower :=
    Option.isSome_iff_exists.mp (by simp [stackChain, stackScopes])
  have tree : env.tree = plug env.program outer [opening.close block.node] := by
    rw [tree, eq, plug, append_nil]
    rfl
  rw [arena, tree]
  exact ⟨lower, mem_links_plug around⟩

/-- Whether the innermost block is the first one of a branch, so that a second one may follow. -/
def inBranch (env : Env) : Bool :=
  match env.blocks with
  | ⟨.branch .., _⟩ :: _ => true
  | _ => false

/-- The stack fits the tree, every number that is kept belongs to a scope of the tree, and a walk
through the tree finds out what was on the stack when. The states so far, this one included, are
`past`. -/
structure Balanced (past : List Env) (env : Env) : Prop where
  innermost : env.chain.head? = some env.current.id
  bottom : env.chain.getLast? = some 0
  hangs : env.chain.IsChain (Hangs env.arena)
  rising : env.chain.Pairwise (· > ·)
  isTree : env.arena.IsTree 0
  numbers : (env.arena.map Prod.fst).Nodup ∧ ∀ number ∈ env.arena.map Prod.fst, number < env.size
  stack : ∀ block ∈ env.chain, env.tree.IsScope block
  branch : env.arena.isOpenBranch? env.current.id = some env.inBranch
  lines : ∀ line block, (line, some block) ∈ env.lines → env.tree.IsScope block
  jumps : ∀ jump ∈ env.jumps, ∃ inner, jump.scopes.head? = some inner ∧ env.tree.IsScope inner ∧
    ∀ outer, env.tree.IsScope outer → ∃ steps, ∀ fuel ≥ steps,
      env.arena.encloses? outer fuel inner = some (decide (outer ∈ jump.scopes))
  encloses : ∀ outer inner, env.tree.IsScope outer → env.tree.IsScope inner → ∃ steps answer,
    (∀ fuel ≥ steps, env.arena.encloses? outer fuel inner = some answer) ∧
      (answer = true ↔ ∃ moment ∈ past, moment.chain.head? = some inner ∧ outer ∈ moment.chain)

namespace Remembers

section

variable (h : Remembers past env)

include h

theorem of_arena : env.arena.Of env.tree where
  once := ids_tree ▸ h.once
  entries := .refl _

theorem id_tree : env.tree.id = 0 := by
  have bottom := h.bottom
  rw [chain, scopes, map_append, map_singleton, getLast?_concat] at bottom
  exact Env.id_tree.trans (Option.some.inj bottom)

/-- The walk from a block answers by the stack of the time when the block was the innermost one. -/
theorem encloses? {chain : List Nat} {inner outer : Nat}
    (mem : chain ∈ env.chains) (head : chain.head? = some inner)
    (isScope : env.tree.IsScope outer) :
    ∃ steps, ∀ fuel ≥ steps, env.arena.encloses? outer fuel inner = some (decide (outer ∈ chain)) :=
  h.of_arena.encloses?_of_mem_chains (chains_tree ▸ mem) head isScope

theorem isOpenBranch? :
    env.arena.isOpenBranch? env.current.id = some env.inBranch := by
  have of := h.of_arena
  cases eq : env.blocks with
  | nil =>
    have top := of.lookup of.mem_root
    rw [Env.id_tree] at top
    rw [current, inBranch, eq, Arena.isOpenBranch?, top]
    rfl
  | cons innermost outer =>
    obtain ⟨opening, block⟩ := innermost
    obtain ⟨lower, own, above⟩ := mem_arena eq
    have above := of.lookup above
    rw [current, inBranch, eq, Arena.isOpenBranch?, of.lookup own]
    show ((env.arena.lookup opening.id).map _ : Option Bool) = _
    rw [above]
    cases opening with
    | loop => rfl
    | branch id line condition =>
      simp [link, Opening.close, Block.node]
    | otherwise => rfl

theorem balanced : Balanced past env where
  innermost := head_chain env
  bottom := h.bottom
  hangs := hangs_plug fun _ mem => mem
  rising := h.rising
  isTree := h.id_tree ▸ h.of_arena.isTree
  numbers := by
    rw [arena, map_fst_links, ids_tree]
    exact ⟨h.once, h.lt_size⟩
  branch := h.isOpenBranch?
  stack block mem := by
    obtain ⟨before, after, eq⟩ := append_of_mem mem
    refine isScope_tree.mpr ⟨block :: after, ?_, rfl⟩
    exact h.lower _ h.now _ (cons_ne_nil block after) ⟨before, eq.symm⟩
  lines line block mem := isScope_tree.mpr (h.lines line block mem)
  jumps jump mem := by
    have known := h.jumps jump mem
    obtain ⟨moment, -, eq⟩ := (h.known _).mp known
    have head : jump.scopes.head? = some moment.current.id := eq ▸ head_chain moment
    exact ⟨_, head, isScope_tree.mpr ⟨_, known, head⟩, fun outer => h.encloses? known head⟩
  encloses outer inner isScope isScope' := by
    obtain ⟨chain, known, head⟩ := isScope_tree.mp isScope'
    obtain ⟨steps, answers⟩ := h.encloses? known head isScope
    refine ⟨steps, _, answers, ?_⟩
    rw [decide_eq_true_iff]
    constructor
    · intro inside
      obtain ⟨moment, mem, rfl⟩ := (h.known chain).mp known
      exact ⟨moment, mem, head, inside⟩
    · rintro ⟨moment, mem, head', inside⟩
      have known' : moment.chain ∈ env.chains := (h.known _).mpr ⟨moment, mem, rfl⟩
      rw [← chains_tree] at known known'
      rwa [eq_of_head? h.of_arena.once known known' (head.trans head'.symm)]

end

end Remembers

end Env

end Parse

/-! The levels of a nested list, by a reader that fails if a level it asks for is not there. -/

namespace Place

/-- The level of the innermost open brace, if one is open. -/
def level? (place : Place) : Option Nat :=
  if place.depth = 0 then none else some (place.depth - 1)

/-- The levels from the given one on, if there are so many. -/
def inner? (place : Place) (level : Nat) : Option (List Nat) :=
  if level ≤ place.index.length then some (place.index.drop level) else none

/-- Behind an opening brace. A brace that is nested too deep leaves the levels as they are. -/
def enter? (place : Place) : Option Place := do
  let place := { place with depth := place.depth + 1 }
  if place.index.length < place.depth then
    return place
  let level ← place.level?
  let inner ← place.inner? level
  return { place with index := place.index.take level ++ inner.map fun _ => 0 }

/-- Behind a comma. -/
def advance? (place : Place) : Option Place := do
  let level ← place.level?
  return { place with index := place.index.modify level (· + 1) }

/-- Behind a closing brace. -/
def leave? (place : Place) : Option Place := do
  let level ← place.level?
  return { place with depth := level }

variable {place : Place}

theorem enter?_eq : place.enter? = some place.enter := by
  obtain ⟨index, depth⟩ := place
  by_cases deep : index.length < depth + 1
  · simp [enter?, enter, deep, take_of_length_le (by omega : index.length ≤ depth),
      (by omega : index.length - depth = 0)]
  · simp [enter?, enter, deep, level?, inner?, (by omega : depth ≤ index.length),
      map_const']

theorem advance?_eq (isOpen : place.depth ≠ 0) : place.advance? = some place.advance := by
  simp [advance?, advance, level?, isOpen]

theorem leave?_eq (isOpen : place.depth ≠ 0) : place.leave? = some place.leave := by
  simp [leave?, leave, level?, isOpen]

end Place

namespace Parse

/-- Fails if a level that is asked for is not there. -/
def present (fault : Diagnostic) : Option Place → Parse Place
  | some place => pure place
  | none => throw fault

/-- `enterBrace`, but for a level that is not there. -/
def guardedBrace (fault : Diagnostic) (name : Token) (place : Place) : Parse Place := do
  let place ← present fault place.enter?
  if !place.fits then
    Check.reportAt name (.initializerTooDeep name.text place.index.length)
  return place

/-- `elements`, but for a level that is not there. -/
def guardedElements (fault : Diagnostic) (number : Nat) (name : Token) : Nat → Place → Parse Unit
  | 0, place => if place.depth = 0 then return () else failHere .endOfSource
  | bound + 1, place => do
    if place.depth = 0 then
      return ()
    let token ← advance
    match token.kind with
    | .separator .leftBrace =>
      guardedElements fault number name bound (← guardedBrace fault name place)
    | .separator .rightBrace =>
      guardedElements fault number name bound (← present fault place.leave?)
    | .separator .comma =>
      guardedElements fault number name bound (← present fault place.advance?)
    | .operator .minus =>
      let digits ← advance
      match digits.kind with
      | .literal .integer => Check.element number name place.index digits .integer true
      | .literal .decimal => Check.element number name place.index digits .decimal true
      | kind => Check.failAt digits (.numberExpected kind)
      guardedElements fault number name bound place
    | .literal kind =>
      Check.element number name place.index token kind false
      guardedElements fault number name bound place
    | kind => Check.failAt token (.elementExpected kind)

/-- `initializer`, but for a level that is not there. -/
def guardedInitializer (fault : Diagnostic) (number : Nat) (name : Token) : Parse Unit := do
  let dims := ((← getThe Env).symbols[number]?.map Variable.dims).getD []
  let _ ← expect (.separator .leftBrace)
  let place ← guardedBrace fault name (.start dims)
  guardedElements fault number name (← get).rest.length place

theorem guardedBrace_eq (fault : Diagnostic) (name : Token) (place : Place) :
    guardedBrace fault name place = enterBrace name place := by
  rw [guardedBrace, Place.enter?_eq, present, pure_bind]
  rfl

theorem guardedElements_eq (fault : Diagnostic) (number : Nat) (name : Token) (bound : Nat)
    (place : Place) :
    guardedElements fault number name bound place = elements number name bound place := by
  induction bound generalizing place with
  | zero => rfl
  | succ bound ih =>
    have guarded := guardedElements.eq_2 fault number name place bound
    by_cases isOpen : place.depth = 0
    · rw [guarded, elements, if_pos isOpen, if_pos isOpen]
    · rw [if_neg isOpen] at guarded
      simp only [Place.leave?_eq isOpen, Place.advance?_eq isOpen, guardedBrace_eq, present,
        pure_bind, ih] at guarded
      exact guarded.trans (if_neg isOpen).symm

theorem guardedInitializer_eq (fault : Diagnostic) (number : Nat) (name : Token) :
    guardedInitializer fault number name = initializer number name := by
  simp only [guardedInitializer, guardedBrace_eq, guardedElements_eq]
  rfl

section Numbers

variable {s s' : TokenStream} {env env' : Env} {u : Unit} {past : List Env}

theorem Yields.numbered_statement (h : Parse.statement.Yields s env u s' env')
    (strict : env.collect = false) (numbered : Numbered 0 env.size env.ids)
    (remembers : env.Remembers past) :
    env'.collect = false ∧ Numbered 0 env'.size env'.ids ∧ env'.Remembers (past ++ [env']) := by
  have arrives := steps_statement s env env (.nil env)
  have eq : Check.exec (Parse.statement.run s) env = (.ok (u, s'), env') := h
  rw [eq] at arrives
  obtain ⟨lost, moves, exact⟩ := arrives
  obtain ⟨added, moved, more⟩ := moves.numbered
  rw [exact strict, append_nil] at more
  exact ⟨moves.collect.trans strict, (numbered.append more).congr moved, remembers.step moves⟩

theorem Yields.numbered_statements {bound : Nat}
    (h : (Parse.statements bound).Yields s env u s' env') (strict : env.collect = false)
    (numbered : Numbered 0 env.size env.ids) (remembers : env.Remembers past) (books : env.Books)
    (closed : env'.blocks = []) :
    env'.collect = false ∧ env'.toProgram.root.id = 0 ∧
      Numbered 0 env'.size env'.toProgram.root.ids ∧ env'.Books := by
  obtain ⟨strict, numbered, books, past, remembers⟩ := h.statements_keep
    (fun env => env.collect = false ∧ Numbered 0 env.size env.ids ∧ env.Books ∧
      ∃ past, env.Remembers past)
    (fun h ⟨strict, numbered, books, _, remembers⟩ =>
      have ⟨strict, numbered, remembers⟩ := h.numbered_statement strict numbered remembers
      ⟨strict, numbered, (h.books_statement books).1, _, remembers⟩)
    ⟨strict, numbered, books, past, remembers⟩
  have tree : env'.tree = env'.toProgram.root := by
    rw [Env.tree, closed, plug, append_nil]
    rfl
  have top := remembers.id_tree
  rw [← Env.ids_tree, tree] at numbered
  rw [tree] at top
  exact ⟨strict, top, numbered, books⟩

end Numbers

end Parse

theorem numbered_of_parse {tokens : List Token} {collect : Bool} {program : Program}
    (h : (parse tokens collect).result = .ok program) :
    program.root.id = 0 ∧ Numbered 0 program.size program.root.ids := by
  obtain ⟨s, env, outcome, _, rfl⟩ := result_parse.mp (parse_strict h)
  obtain ⟨_, env₁, read, closed, checked⟩ := Parse.Yields.program outcome
  obtain ⟨strict, top, numbered, _⟩ := read.numbered_statements rfl (Numbered.nil 0).succ
    (Parse.Env.remembers_start false) (Parse.Env.books_start false) closed
  obtain ⟨-, log, rfl⟩ := checked.checkJumps strict
  exact ⟨top, numbered⟩

/-- What the parser accepts is a well-formed program, whether or not it collects diagnostics. -/
theorem wellFormed_of_parse {tokens : List Token} {collect : Bool} {program : Program}
    (quoted : AllQuoted tokens) (h : (parse tokens collect).result = .ok program) :
    program.WellFormed := by
  obtain ⟨s, env, outcome, _, rfl⟩ := result_parse.mp (parse_strict h)
  obtain ⟨_, env₁, read, closed, checked⟩ := Parse.Yields.program outcome
  obtain ⟨strict, _, numbered, books⟩ := read.numbered_statements rfl (Numbered.nil 0).succ
    (Parse.Env.remembers_start false) (Parse.Env.books_start false) closed
  obtain ⟨_, _, runs⟩ :=
    read.statements_runs (Nat.le_refl _) (by rw [Parse.Env.constructs, closed]; rfl)
  obtain ⟨_, _, runs⟩ := runs rfl quoted
  obtain ⟨lands, log, rfl⟩ := checked.checkJumps strict
  exact (runs.lines.sound (Parse.Env.sound_start false)).wellFormed books closed lands numbered.nodup

end LineBasic
