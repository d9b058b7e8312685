import LineBasic.Proofs.Parse.Ledger

/-!
What a statement does to the tree and to the stack of blocks, however faults are treated.
-/

namespace LineBasic

open List Node

namespace Parse

namespace Env

variable {start mid env : Env} {lost lost' : List Nat} {here : Nat} {tags : List Tag}

theorem ids_opened (opening : Opening) :
    (env.opened opening).ids = env.ids ++ (opening.id :: idsAll opening.parts ++ [env.size]) := by
  simp [ids, opened, stackIds]

/-- Nodes have been added to the tree, and jumps and lines have been noted in the innermost block.
Numbers that were given out meanwhile are in the tree or lost. -/
structure Gathers (start env : Env) (lost : List Nat) : Prop where
  collect : env.collect = start.collect
  lines : ∀ line block, (line, some block) ∈ env.lines →
    (line, some block) ∈ start.lines ∨ start.chain.head? = some block
  jumps : ∀ jump ∈ env.jumps, jump ∈ start.jumps ∨ jump.scopes = start.chain
  numbered : ∃ added, env.ids.Perm (start.ids ++ added) ∧
    Numbered start.size env.size (added ++ lost)

/-- The stack of blocks and the scopes of the tree are the same. -/
structure Stays (start env : Env) (lost : List Nat) : Prop extends Gathers start env lost where
  chain : env.chain = start.chain
  chains : env.chains = start.chains
  ledger : start.Ledger → env.Ledger

/-- How the stack of blocks changes: not at all, or the innermost block is left, or a new one is
entered, in the innermost one or in its place. -/
inductive Turn (start env : Env) : Prop
  | stay : env.chain = start.chain → env.chains = start.chains → Turn start env
  | leave (id : Nat) : start.chain = id :: env.chain → env.chains = start.chains → Turn start env
  | enter (id : Nat) : start.size ≤ id → env.chain = id :: start.chain →
      env.chains = start.chains ++ [env.chain] → Turn start env
  | swap (id old : Nat) (rest : List Nat) : start.size ≤ id → rest ≠ [] →
      start.chain = old :: rest → env.chain = id :: rest →
      env.chains = start.chains ++ [env.chain] → Turn start env

structure Moves (start env : Env) (lost : List Nat) : Prop extends Gathers start env lost where
  turn : Turn start env
  books : start.Ledger → env.Books

theorem Stays.moves (h : Stays start env lost) : Moves start env lost :=
  ⟨h.toGathers, .stay h.chain h.chains, fun ledger => (h.ledger ledger).toBooks⟩

theorem Gathers.trans (first : Gathers start mid lost) (same : mid.chain = start.chain)
    (second : Gathers mid env lost') : Gathers start env (lost ++ lost') where
  collect := second.collect.trans first.collect
  lines line block mem := by
    rcases second.lines line block mem with mem | head
    · exact first.lines line block mem
    · exact .inr (same ▸ head)
  jumps jump mem := by
    rcases second.jumps jump mem with mem | scopes
    · exact first.jumps jump mem
    · exact .inr (scopes.trans same)
  numbered := by
    obtain ⟨added, moved, numbered⟩ := first.numbered
    obtain ⟨added', moved', numbered'⟩ := second.numbered
    refine ⟨added ++ added', ?_, (numbered.append numbered').congr ?_⟩
    · rw [← append_assoc]
      exact moved'.trans (moved.append_right _)
    · simp only [append_assoc]
      exact (perm_append_comm_assoc ..).append_left _

theorem Within.stays (h : start.Within env) (numbered : Numbered start.size env.size lost) :
    Stays start env lost where
  collect := h.collect
  lines line block mem := .inl (h.lines ▸ mem)
  jumps jump mem := .inl (h.jumps ▸ mem)
  numbered := ⟨[], by rw [h.ids, append_nil], numbered⟩
  chain := h.chain
  chains := h.chains
  ledger := h.ledger

theorem Within.loses (h : start.Within env) :
    Stays start env (List.range' start.size (env.size - start.size)) :=
  h.stays (.range h.size)

theorem Built.stays (h : start.Built here tags env) : Stays start env (tags.map Prod.fst) :=
  h.within.stays h.numbered

theorem Stays.trans (first : Stays start mid lost) (second : Stays mid env lost') :
    Stays start env (lost ++ lost') :=
  ⟨first.toGathers.trans first.chain second.toGathers, second.chain.trans first.chain,
    second.chains.trans first.chains, fun ledger => second.ledger (first.ledger ledger)⟩

theorem Gathers.size_le (h : Gathers start env lost) : start.size ≤ env.size := by
  obtain ⟨_, _, numbered⟩ := h.numbered
  exact numbered.le

theorem Stays.trans_moves (first : Stays start mid lost) (second : Moves mid env lost') :
    Moves start env (lost ++ lost') := by
  refine ⟨first.toGathers.trans first.chain second.toGathers, ?_,
    fun ledger => second.books (first.ledger ledger)⟩
  have size := first.size_le
  have chain := first.chain
  have chains := first.chains
  cases second.turn with
  | stay same same' => exact .stay (same.trans chain) (same'.trans chains)
  | leave id same same' => exact .leave id (chain ▸ same) (same'.trans chains)
  | enter id bound same same' =>
    exact .enter id (Nat.le_trans size bound) (chain ▸ same) (chains ▸ same')
  | swap id old rest bound inner same same' same'' =>
    exact .swap id old rest (Nat.le_trans size bound) inner (chain ▸ same) same' (chains ▸ same'')

theorem Moves.trans_within (first : Moves start mid lost) (second : mid.Within env)
    (numbered : Numbered mid.size env.size lost') : Moves start env (lost ++ lost') where
  collect := second.collect.trans first.collect
  lines line block mem := first.lines line block (second.lines ▸ mem)
  jumps jump mem := first.jumps jump (second.jumps ▸ mem)
  numbered := by
    obtain ⟨added, moved, before⟩ := first.numbered
    refine ⟨added, second.ids ▸ moved, ?_⟩
    rw [← append_assoc]
    exact before.append numbered
  turn := by
    have chain := second.chain
    have chains := second.chains
    cases first.turn with
    | stay same same' => exact .stay (chain.trans same) (chains.trans same')
    | leave id same same' => exact .leave id (chain ▸ same) (chains.trans same')
    | enter id bound same same' => exact .enter id bound (chain ▸ same) (by rw [chains, same', chain])
    | swap id old rest bound inner same same' same'' =>
      exact .swap id old rest bound inner same (chain ▸ same') (by rw [chains, same'', chain])
  books ledger := second.books (first.books ledger)

theorem Within.attach {node : Node} (h : start.Within env)
    (numbered : Numbered start.size env.size node.ids) : Gathers start (env.attached node) [] where
  collect := (collect_attached ..).trans h.collect
  lines line block mem := by
    have same : (env.appended node).lines = env.lines := by
      unfold appended updateCurrent
      split <;> rfl
    rcases mem_markLine mem with ⟨-, eq⟩ | mem
    · right
      rw [← h.chain, ← chain_appended env node, head_chain, eq]
    · exact .inl (h.lines ▸ same ▸ mem)
  jumps jump mem := by
    have same : (env.attached node).jumps = env.jumps := by
      unfold attached appended markLine updateCurrent
      split <;> rfl
    exact .inl (h.jumps ▸ same ▸ mem)
  numbered := by
    refine ⟨node.ids, ?_, ?_⟩
    · show (env.appended node).ids.Perm _
      rw [ids_appended, h.ids]
    · rw [size_attached, append_nil]
      exact numbered

theorem Built.attach {node : Node} (h : start.Built here node.tags env) :
    Stays start (env.attached node) [] where
  toGathers := h.within.attach (map_fst_tags node ▸ h.numbered)
  chain := (chain_appended env node).trans h.within.chain
  chains := (chains_appended (blocks_eq_nil fun tag mem => by rw [h.plain tag mem])).trans
    h.within.chains
  ledger ledger := by
    have adds : env.Adds _ (env.attached node) := adds_attached fun tag mem => by
      rw [h.plain tag mem, h.within.line, h.line]
    exact adds.ledger (h.within.ledger ledger) (line_attached ..) (chain_appended ..)

theorem stays_goto (target : Nat) (position : Position) :
    Stays env (({ env with size := env.size + 1 }.attached
      ⟨env.size, env.line, .goto target, []⟩).jumped target position) [] := by
  let numbered : Env := { env with size := env.size + 1 }
  let node : Node := ⟨env.size, env.line, .goto target, []⟩
  have within : env.Within numbered :=
    ⟨rfl, Nat.le_succ _, rfl, rfl, rfl, rfl, rfl, rfl, rfl, rfl⟩
  have attached : env.Gathers (numbered.attached node) [] :=
    within.attach (by simpa [node, ids_mk] using (Numbered.nil env.size).succ)
  have noted : (numbered.attached node).Gathers
      ((numbered.attached node).jumped target position) [] := by
    refine ⟨rfl, fun _ _ => .inl, fun jump mem => ?_, [], by rw [append_nil]; exact .refl _,
      .nil _⟩
    rcases Array.mem_push.mp mem with mem | rfl
    · exact .inl mem
    · exact .inr rfl
  refine ⟨attached.trans (chain_appended numbered node) noted, chain_appended numbered node,
    chains_appended (by simp [blocks_mk, NodeKind.vars?]), fun ledger => ?_⟩
  exact (@adds_goto numbered target position env.size).ledger (within.ledger ledger)
    (line_attached ..) (chain_appended numbered node)

theorem stays_labelled {number : Nat} (fresh : number ∉ env.lines.map Prod.fst) :
    Stays env (env.labelled number) [] where
  collect := rfl
  lines line block mem := by
    rcases mem_cons.mp mem with eq | mem
    · cases eq
    · exact .inl mem
  jumps _ := .inl
  numbered := ⟨[], by rw [append_nil]; exact .refl _, .nil _⟩
  chain := rfl
  chains := rfl
  ledger ledger := ledger.label fresh

theorem Built.open {opening : Opening} (h : start.Built here tags env) (line : opening.line = here)
    (all : ((opening.id, false, here) :: tagsAll opening.parts).Perm tags) :
    Moves start (env.markLine.opened opening) [] where
  collect := h.within.collect
  lines line block mem := by
    rcases mem_markLine mem with ⟨-, eq⟩ | mem
    · right
      rw [← h.within.chain, head_chain, eq]
    · exact .inl (h.within.lines ▸ mem)
  jumps jump mem := .inl (h.within.jumps ▸ mem)
  numbered := by
    refine ⟨opening.id :: idsAll opening.parts ++ [env.size], ?_, ?_⟩
    · rw [ids_opened]
      show (env.ids ++ _).Perm _
      rw [h.within.ids]
      exact .refl _
    · rw [append_nil]
      refine (h.numbered.congr ?_).succ
      rw [← map_fst_tagsAll]
      exact all.map Prod.fst
  turn := by
    have plain : blocksAll opening.parts = [] := blocksAll_eq_nil_of_tags fun tag mem => by
      rw [h.plain tag (all.mem_iff.mp (mem_cons_of_mem _ mem))]
    have chains : env.markLine.chains = start.chains := h.within.chains
    refine .enter env.size h.within.size ?_ ?_
    · show env.size :: env.chain = _
      rw [h.within.chain]
    · rw [chains_opened plain, chains]
  books ledger := by
    refine (adds_opened ?_ fun tag mem => ?_).books (h.within.ledger ledger)
    · rw [line, ← h.line, h.within.line]
    · rw [h.plain tag (all.mem_iff.mp (mem_cons_of_mem _ mem))]

theorem moves_otherwise {id line : Nat} {condition : Node} {consequence : Block}
    {outer : List OpenBlock} (eq : env.blocks = ⟨.branch id line condition, consequence⟩ :: outer) :
    Moves env ({ env with blocks := outer }.opened
      (.otherwise id line condition consequence.node)) [] where
  collect := rfl
  lines _ _ := .inl
  jumps _ := .inl
  numbered := by
    refine ⟨[env.size], .of_eq ?_, (Numbered.nil env.size).succ⟩
    simp [ids, opened, eq, stackIds, Opening.id, Opening.parts, Block.node, ids_mk]
  turn := by
    refine .swap env.size consequence.id (stackChain env.program outer) (Nat.le_refl _) ?_ ?_ rfl ?_
    · simp [stackChain, stackScopes]
    · simp [chain, scopes, eq, stackChain, stackScopes]
    · simp [chains, opened, eq, stackChains, Opening.parts, Block.node, Node.chains,
        NodeKind.vars?, chain, scopes, stackChain, stackScopes]
  books ledger := ledger.toBooks.congr (sites_otherwise eq) rfl rfl rfl

theorem moves_close {opening : Opening} {block : Block} {outer : List OpenBlock}
    (eq : env.blocks = ⟨opening, block⟩ :: outer) :
    Moves env ({ env with blocks := outer }.appended (opening.close block.node)) [] := by
  have tree := tree_close eq
  have same : ({ env with blocks := outer }.appended (opening.close block.node)).lines = env.lines ∧
      ({ env with blocks := outer }.appended (opening.close block.node)).jumps = env.jumps ∧
      ({ env with blocks := outer }.appended (opening.close block.node)).leaving = env.leaving ∧
      ({ env with blocks := outer }.appended (opening.close block.node)).size = env.size ∧
      ({ env with blocks := outer }.appended (opening.close block.node)).collect = env.collect := by
    unfold appended updateCurrent
    split <;> exact ⟨rfl, rfl, rfl, rfl, rfl⟩
  obtain ⟨lines, jumps, leaving, size, collect⟩ := same
  refine ⟨⟨collect, ?_, ?_, [], ?_, ?_⟩, .leave block.id ?_ ?_,
    fun ledger => ledger.toBooks.congr (sites_close eq) lines jumps leaving⟩
  · exact fun line number mem => .inl (lines ▸ mem)
  · exact fun jump mem => .inl (jumps ▸ mem)
  · rw [← ids_tree, tree, ids_tree, append_nil]
  · rw [size]
    exact .nil _
  · rw [chain_appended]
    simp [chain, scopes, eq]
  · rw [← chains_tree, tree, chains_tree]

/-- A relation that holds if blocks and scopes stay the same, and after a step that keeps them. -/
class IsMove (relation : Env → Env → List Nat → Prop) : Prop where
  of_stays {start env : Env} {lost : List Nat} : Stays start env lost → relation start env lost
  trans {start mid env : Env} {lost lost' : List Nat} : Stays start mid lost →
    relation mid env lost' → relation start env (lost ++ lost')

instance : IsMove Stays :=
  ⟨id, Stays.trans⟩

instance : IsMove Moves :=
  ⟨Stays.moves, Stays.trans_moves⟩

end Env

end Parse

open Parse (Env)

variable {α β : Type} {here : Nat}

namespace Check

/-- The state that is left is in the given relation. Nodes are lost only if a fault is found. -/
def Arrives (relation : Env → Env → List Nat → Prop) (start : Env) :
    Except Diagnostic α × Env → Prop
  | (.ok _, env) => ∃ lost, relation start env lost ∧ (start.collect = false → lost = [])
  | (.error _, env) => ∃ lost, relation start env lost

/-- Out of nodes that have been built a check leads to a state in the given relation. -/
def Leads (relation : Env → Env → List Nat → Prop) (here : Nat) (check : Check α)
    (used : List Tag) : Prop :=
  ∀ start env : Env, start.Built here used env → Arrives relation start (check.exec env)

abbrev Puts (here : Nat) (check : Check α) (used : List Tag) : Prop :=
  Leads Env.Stays here check used

namespace Leads

variable {relation : Env → Env → List Nat → Prop} {check : Check α} {next : α → Check β}
  {used : List Tag} {mid : α → List Tag}

theorem get_bind {next : Env → Check β}
    (h : ∀ env : Env, env.line = here → Leads relation here (next env) used) :
    Leads relation here (get >>= next) used :=
  fun start env built => h env (built.within.line.trans built.line) start env built

theorem ite {p : Prop} [Decidable p] {yes no : Check α} (then_ : Leads relation here yes used)
    (else_ : Leads relation here no used) : Leads relation here (if p then yes else no) used := by
  split
  · exact then_
  · exact else_

theorem congr {used' : List Tag} (h : Leads relation here check used)
    (moved : used.Perm used') : Leads relation here check used' :=
  fun start env built => h start env (built.congr moved)

variable [Env.IsMove relation]

theorem of_builds (h : Builds here check used fun _ => []) : Leads relation here check used := by
  intro start env built
  have h := h start [] env built
  revert h
  rcases check.exec env with ⟨d | a, env₁⟩
  · exact fun within => ⟨_, Env.IsMove.of_stays within.loses⟩
  · exact fun built => ⟨[], Env.IsMove.of_stays built.stays, fun _ => rfl⟩

theorem bind (first : Builds here check used mid)
    (second : ∀ a, Leads relation here (next a) (mid a)) :
    Leads relation here (check >>= next) used := by
  intro start env built
  have h := first start [] env built
  rw [exec_bind]
  revert h
  rcases check.exec env with ⟨d | a, env₁⟩
  · exact fun within => ⟨_, Env.IsMove.of_stays within.loses⟩
  · exact second a start env₁

theorem after (first : Builds here check [] mid)
    (second : ∀ a, Leads relation here (next a) (used ++ mid a)) :
    Leads relation here (check >>= next) used := by
  have beside := first.beside used []
  simp only [append_nil] at beside
  exact bind beside second

theorem quietly (first : Rests here check) (second : ∀ a, Leads relation here (next a) used) :
    Leads relation here (check >>= next) used :=
  after first fun a => by
    rw [append_nil]
    exact second a

theorem then_leads (first : Puts here check used)
    (second : ∀ a here, Leads relation here (next a) []) :
    Leads relation here (check >>= next) used := by
  intro start env built
  have h := first start env built
  rw [exec_bind]
  revert h
  rcases check.exec env with ⟨d | a, env₁⟩
  · exact fun h => h.imp fun _ => Env.IsMove.of_stays
  · rintro ⟨lost, stays, exact⟩
    have h := second a _ env₁ env₁ (.nil env₁)
    revert h
    show _ → Arrives relation start ((next a).exec env₁)
    rcases (next a).exec env₁ with ⟨d | b, env₂⟩
    · rintro ⟨lost', moves⟩
      exact ⟨_, Env.IsMove.trans stays moves⟩
    · rintro ⟨lost', moves, exact'⟩
      refine ⟨_, Env.IsMove.trans stays moves, fun strict => ?_⟩
      rw [exact strict, exact' (stays.collect.trans strict)]
      rfl

end Leads

theorem puts_attach (node : Node) : Puts here (attach node) node.tags :=
  fun _ _ built => ⟨[], built.attach, fun _ => rfl⟩

/-- Behind a fault that is collected, what has been built is lost. -/
theorem puts_reportAt (token : Token) (fault : SemanticFault) (used : List Tag) :
    Puts here (reportAt token fault) used := by
  intro start env built
  have rests := rests_reportAt token fault start used env (by rwa [append_nil])
  have fails : env.collect = false → ∀ env', (reportAt token fault).exec env ≠ (.ok (), env') :=
    fun strict _ => not_yields_reportAt strict
  revert rests fails
  rcases (reportAt token fault).exec env with ⟨d | _, env₁⟩
  · exact fun within _ => ⟨_, within.loses⟩
  · intro built' fails
    refine ⟨_, built'.stays, fun strict => ?_⟩
    exact absurd rfl (fails (built.within.collect.trans strict) env₁)

theorem builds_mapM {γ : Type} {f : γ → Check Node} (h : ∀ c, Builds here (f c) [] tags) (cs : List γ) :
    Builds here (cs.mapM f) [] tagsAll := by
  induction cs with
  | nil => exact .pure (.refl _)
  | cons c cs ih =>
    rw [mapM_cons]
    exact .bind (h c) fun _ => .after ih fun _ => .pure (.refl _)

theorem puts_element (number : Nat) (name : Token) (index : List Nat) (token : Token)
    (kind : LiteralKind) (negative : Bool) :
    Puts here (element number name index token kind negative) [] := by
  refine .bind (builds_literal _ _ _) fun value => .get_bind fun _ _ => ?_
  dsimp only
  refine .ite (puts_reportAt _ _ _) (.after builds_fresh fun id => ?_)
  refine .after (builds_mapM (fun _ => builds_literalNode _ _) _) fun indices => ?_
  refine .get_bind fun env line => ?_
  refine .bind ((builds_assignment _ _ _).congr ?_) fun statement => puts_attach statement
  rw [tags_mk, line, append_assoc]
  exact perm_append_comm

end Check

namespace Parse

/-- Out of nodes that have been built a parser leads to a state, whatever tokens it reads. -/
def Leads (relation : Env → Env → List Nat → Prop) (here : Nat) (parser : Parse α)
    (used : List Tag) : Prop :=
  ∀ s, Check.Leads relation here (parser.run s) used

abbrev Puts (here : Nat) (parser : Parse α) (used : List Tag) : Prop :=
  Leads Env.Stays here parser used

/-- Blocks may be opened or closed. -/
abbrev Steps (here : Nat) (parser : Parse α) (used : List Tag) : Prop :=
  Leads Env.Moves here parser used

namespace Leads

variable {relation : Env → Env → List Nat → Prop} {parser : Parse α} {next : α → Parse β}
  {used : List Tag} {mid : α → List Tag}

theorem get_bind {next : TokenStream → Parse β} (h : ∀ s, Leads relation here (next s) used) :
    Leads relation here (get >>= next) used :=
  fun s => h s s

theorem getThe_bind {next : Env → Parse β}
    (h : ∀ env : Env, env.line = here → Leads relation here (next env) used) :
    Leads relation here (getThe Env >>= next) used := by
  intro s
  show Check.Leads relation here (MonadState.get >>= fun env => (next env).run s) used
  exact .get_bind fun env line => h env line s

theorem ite {p : Prop} [Decidable p] {yes no : Parse α} (then_ : Leads relation here yes used)
    (else_ : Leads relation here no used) : Leads relation here (if p then yes else no) used := by
  split
  · exact then_
  · exact else_

variable [Env.IsMove relation]

theorem of_builds (h : Builds here parser used fun _ => []) : Leads relation here parser used :=
  fun s => .of_builds (h s)

theorem bind (first : Builds here parser used mid)
    (second : ∀ a, Leads relation here (next a) (mid a)) :
    Leads relation here (parser >>= next) used :=
  fun s => .bind (first s) fun read => second read.1 read.2

theorem after (first : Builds here parser [] mid)
    (second : ∀ a, Leads relation here (next a) (used ++ mid a)) :
    Leads relation here (parser >>= next) used :=
  fun s => .after (first s) fun read => second read.1 read.2

theorem quietly (first : Rests here parser) (second : ∀ a, Leads relation here (next a) used) :
    Leads relation here (parser >>= next) used :=
  fun s => .quietly (first s) fun read => second read.1 read.2

theorem then_leads (first : Puts here parser used)
    (second : ∀ a here, Leads relation here (next a) []) :
    Leads relation here (parser >>= next) used :=
  fun s => .then_leads (first s) fun read here => second read.1 here read.2

theorem getThe_self {next : Env → Parse β}
    (h : ∀ s (env : Env), Check.Arrives relation env (Check.exec ((next env).run s) env)) :
    Leads relation here (getThe Env >>= next) [] := by
  have own : ∀ s start env, start.Built here [] env →
      Check.Arrives relation start (Check.exec ((next env).run s) env) := by
    intro s start env built
    have first := h s env
    revert first
    rcases Check.exec ((next env).run s) env with ⟨d | read, env₁⟩
    · rintro ⟨lost, moves⟩
      exact ⟨_, Env.IsMove.trans built.stays moves⟩
    · rintro ⟨lost, moves, exact⟩
      refine ⟨_, Env.IsMove.trans built.stays moves, fun strict => ?_⟩
      rw [exact (built.within.collect.trans strict)]
      rfl
  exact own

theorem lift {check : Check α} (h : Check.Puts here check used) : Puts here (liftM check) used :=
  fun _ => .then_leads h fun _ _ => .of_builds (.pure (.refl _))

theorem steps (h : Puts here parser used) : Steps here parser used := by
  intro s start env built
  have h := h s start env built
  revert h
  rcases Check.exec (parser.run s) env with ⟨d | read, env₁⟩
  · exact fun h => h.imp fun _ => Env.Stays.moves
  · exact fun h => h.imp fun _ h => ⟨h.1.moves, h.2⟩

theorem then_rests (first : Steps here parser used) (second : ∀ a here, Rests here (next a)) :
    Steps here (parser >>= next) used := by
  intro s start env built
  have h := first s start env built
  show Check.Arrives _ _ (Check.exec (parser.run s >>= fun read => (next read.1).run read.2) env)
  rw [Check.exec_bind]
  revert h
  rcases Check.exec (parser.run s) env with ⟨d | ⟨a, s₁⟩, env₁⟩
  · exact id
  · rintro ⟨lost, moves, exact⟩
    have h := second a _ s₁ env₁ [] env₁ (.nil env₁)
    revert h
    show _ → Check.Arrives _ _ (Check.exec ((next a).run s₁) env₁)
    rcases Check.exec ((next a).run s₁) env₁ with ⟨d | b, env₂⟩
    · exact fun within => ⟨_, moves.trans_within within (.range within.size)⟩
    · intro built'
      refine ⟨_, moves.trans_within built'.within built'.numbered, fun strict => ?_⟩
      rw [exact strict]
      rfl

end Leads

theorem rests_enterBrace (name : Token) (place : Place) : Rests here (enterBrace name place) :=
  .ite (.quietly (.lift (Check.rests_reportAt _ _)) fun _ => rests_pure _) (rests_pure _)

theorem puts_elements (number : Nat) (name : Token) (bound : Nat) (place : Place) :
    Puts here (elements number name bound place) [] := by
  have stops {here : Nat} : Puts here (pure () : Parse Unit) [] := .of_builds (rests_pure _)
  induction bound generalizing place here with
  | zero => exact .ite stops (.of_builds (builds_failHere _))
  | succ bound ih =>
    refine .ite stops (.quietly rests_advance fun token => ?_)
    split
    next => exact .quietly (rests_enterBrace _ _) fun _ => ih _
    next => exact ih _
    next => exact ih _
    next =>
      refine .quietly rests_advance fun digits => ?_
      split
      next => exact .then_leads (.lift (Check.puts_element _ _ _ _ _ _)) fun _ _ => ih _
      next => exact .then_leads (.lift (Check.puts_element _ _ _ _ _ _)) fun _ _ => ih _
      next => exact .quietly (.lift (Check.builds_failAt _ _)) fun _ => ih _
    next => exact .then_leads (.lift (Check.puts_element _ _ _ _ _ _)) fun _ _ => ih _
    next => exact .of_builds (.lift (Check.builds_failAt _ _))

theorem puts_initializer (number : Nat) (name : Token) : Puts here (initializer number name) [] :=
  .getThe_bind fun _ _ => .quietly (rests_expect _) fun _ => .quietly (rests_enterBrace _ _) fun _ =>
    .get_bind fun _ => puts_elements _ _ _ _

theorem puts_declaration : Puts here declaration [] := by
  refine .quietly (rests_expect _) fun name => ?_
  refine .quietly (rests_many (rests_dimension name)) fun dims => .getThe_bind fun env _ => ?_
  have finish (number : Nat) : Puts here (do
      let assigned ← accept (.operator .equal)
      if assigned || (← peekKind?) = some (.separator .leftBrace) then
        initializer number name) [] :=
    .quietly (rests_accept _) fun _ => .quietly rests_peekKind? fun _ =>
      .ite (puts_initializer _ _) (.of_builds (rests_pure _))
  refine .ite (.quietly (.lift (Check.rests_reportAt _ _)) fun _ => ?_) ?_
  all_goals
    refine .ite ?_ (.quietly (.lift (Check.rests_reportAt _ _)) fun _ => ?_)
  all_goals
    refine .quietly (rests_pure _) fun dims => ?_
    refine .quietly (.lift (Check.rests_declare _ _)) fun number => .getThe_bind fun env _ => ?_
    split
    next => exact .quietly (.lift (Check.rests_record rfl)) fun _ => finish number
    next => exact finish number

theorem puts_failAt_bind {next : α → Parse β} (token : Token) (fault : GrammarFault) :
    Puts here (liftM (Check.failAt token fault : Check α) >>= next) [] := by
  refine .bind (.lift (@Check.builds_failAt _ _ [] (fun _ => [(0, true, 0)]) token fault))
    fun _ _ _ _ built => ?_
  cases built.plain _ (mem_singleton_self _)

theorem puts_lineLabel : Puts here lineLabel [] := by
  refine .quietly rests_advance fun token => .ite (puts_failAt_bind _ _) ?_
  refine .quietly (rests_lineNumber _) fun number => .getThe_self fun s env => ?_
  split
  next => exact puts_failAt_bind token _ s env env (.nil env)
  next other =>
    refine ⟨[], Env.stays_labelled fun mem => other ?_, fun _ => rfl⟩
    obtain ⟨line, mem, eq⟩ := mem_map.mp mem
    exact any_eq_true.mpr ⟨line, mem, by simpa using eq⟩

theorem puts_letStatement (name : Token) : Puts here (letStatement name) [] := by
  refine .bind (builds_indices builds_expression) fun indices => .quietly (rests_expect _) fun _ => ?_
  refine .after builds_expression fun value => ?_
  refine .bind ((Check.builds_writtenVariable name indices).beside [] value.tags |> .lift)
    fun target => ?_
  exact .bind (.lift (Check.builds_assignment _ _ _)) fun _ => .lift (Check.puts_attach _)

theorem puts_gotoStatement : Puts here gotoStatement [] := by
  refine .quietly (rests_expect _) fun token => .quietly (rests_lineNumber _) fun target => ?_
  exact fun _ _ env built =>
    ⟨_, built.stays.trans (Env.stays_goto target token.position), fun _ => rfl⟩

/-- A statement under a number that was given out behind its first child. -/
theorem puts_attach_around {id line : Nat} {kind : NodeKind} {first : Node} {rest : List Node}
    (plain : kind.isSpecial = false) (isHere : line = here) :
    Puts here (liftM (Check.attach ⟨id, line, kind, first :: rest⟩))
      (first.tags ++ [(id, false, here)] ++ tagsAll rest) := by
  refine .lift ((Check.puts_attach _).congr ?_)
  rw [tags_mk, plain, isHere, tagsAll, flatMap_cons, append_assoc]
  exact perm_middle.symm

theorem puts_printStatement : Puts here printStatement [] := by
  refine .bind (builds_format _) fun format => .after (.lift Check.builds_fresh) fun id => ?_
  refine .after (builds_many ?_) fun arguments => .getThe_bind fun env => puts_attach_around rfl
  refine .quietly (rests_accept _) fun _ => .ite ?_ (.pure (.refl _))
  exact .bind builds_expression fun _ => .pure (.refl _)

theorem puts_readStatement : Puts here readStatement [] := by
  refine .bind (builds_format _) fun format => .after (.lift Check.builds_fresh) fun id => ?_
  exact .after (builds_many builds_readTarget) fun targets =>
    .getThe_bind fun env => puts_attach_around rfl

theorem puts_printlnStatement : Puts here printlnStatement [] := by
  refine .bind (.lift Check.builds_fresh) fun id => .getThe_bind fun env line => .get_bind fun s => ?_
  refine .ite ?_ ?_
  · refine .after (.lift (Check.builds_literalNode _ _)) fun format => ?_
    refine .lift ((Check.puts_attach _).congr ?_)
    rw [tags_mk, line]
    simp [NodeKind.isSpecial, NodeKind.vars?, NodeKind.target?]
  · refine .quietly (rests_expect _) fun name => ?_
    refine .after (builds_variableRead builds_expression _) fun argument => .getThe_bind fun _ _ => ?_
    refine .after (.lift (Check.builds_literalNode _ _)) fun format => ?_
    refine .lift ((Check.puts_attach _).congr ?_)
    rw [tags_mk, line]
    simpa [NodeKind.isSpecial, NodeKind.vars?, NodeKind.target?] using perm_append_comm

theorem steps_forStatement : Steps here forStatement [] := by
  refine .quietly (rests_expect _) fun name => .quietly (rests_expect _) fun _ => ?_
  refine .bind builds_expression fun value => ?_
  refine .after (.lift (Check.builds_writtenVariable _ _)) fun target => ?_
  refine .bind (.lift ((Check.builds_assignment name target value).congr perm_append_comm))
    fun start => .quietly (rests_expect _) fun _ => ?_
  refine .after builds_expression fun limit => .quietly (rests_accept _) fun found => ?_
  have finish (step : Node) : Steps here (do
      let id ← Check.fresh
      modifyThe Env Env.markLine
      Check.openBlock (.loop id here start limit step)) (start.tags ++ limit.tags ++ step.tags) := by
    refine .after (.lift Check.builds_fresh) fun id => ?_
    have all : ((id, false, here) :: tagsAll [start, limit, step]).Perm
        (start.tags ++ limit.tags ++ step.tags ++ [(id, false, here)]) := by
      simp only [tagsAll, flatMap_cons, flatMap_nil, append_nil,
        ← append_assoc]
      exact (perm_append_singleton _ _).symm
    exact fun _ _ _ built => ⟨[], built.open rfl all, fun _ => rfl⟩
  refine .ite (.after builds_expression fun step => ?_)
    (.after (.lift (Check.builds_literalNode _ _)) fun step => ?_)
  all_goals
    refine .getThe_bind fun env line => ?_
    rw [line]
    dsimp only
    split
    next => exact .ite (.quietly (.lift (Check.rests_record rfl)) fun _ => finish step) (finish step)
    next => exact finish step

theorem steps_ifStatement : Steps here ifStatement [] := by
  refine .bind builds_expression fun lhs => .quietly rests_advance fun token => ?_
  split
  next comparator _ =>
    have opened : Steps here (do
        let rhs ← expression
        let condition ← Check.binary comparator token lhs rhs
        let _ ← accept (.keyword .THEN)
        let id ← Check.fresh
        modifyThe Env Env.markLine
        Check.openBlock (.branch id (← getThe Env).line condition)) lhs.tags := by
      refine .after builds_expression fun rhs => ?_
      refine .bind (.lift (Check.builds_binary _ _ _ _)) fun condition => ?_
      refine .quietly (rests_accept _) fun _ => .after (.lift Check.builds_fresh) fun id => ?_
      have all : ((id, false, here) :: tagsAll [condition]).Perm
          (condition.tags ++ [(id, false, here)]) := by
        simp only [tagsAll, flatMap_cons, flatMap_nil, append_nil]
        exact (perm_append_singleton _ _).symm
      exact fun _ _ _ built =>
        ⟨[], built.open (built.within.line.trans built.line) all, fun _ => rfl⟩
    exact .ite (.quietly (.lift (Check.builds_failAt _ _)) fun _ => opened) opened
  next => exact .of_builds (.lift (Check.builds_failAt _ _))

theorem steps_failAt (token : Token) (fault : GrammarFault) :
    Steps here (liftM (Check.failAt token fault : Check α)) [] :=
  .of_builds (.lift (Check.builds_failAt _ _))

theorem steps_elseStatement (keyword : Token) : Steps here (elseStatement keyword) [] := by
  refine .getThe_self fun s env => ?_
  split
  next eq => exact ⟨[], Env.moves_otherwise eq, fun _ => rfl⟩
  next => exact steps_failAt keyword _ s env env (.nil env)

theorem steps_endStatement (keyword : Token) : Steps here (endStatement keyword) [] := by
  refine .getThe_self fun s env => ?_
  split
  next eq => exact ⟨[], Env.moves_close eq, fun _ => rfl⟩
  next => exact steps_failAt keyword _ s env env (.nil env)

theorem steps_statementBody (token : Token) : Steps here (statementBody token) [] := by
  unfold statementBody
  split
  next => exact .quietly (rests_expect _) fun _ => (puts_letStatement _).steps
  next => exact (puts_letStatement _).steps
  next => exact puts_declaration.steps
  next => exact puts_gotoStatement.steps
  next => exact steps_forStatement
  next => exact steps_ifStatement
  next => exact steps_elseStatement _
  next => exact steps_endStatement _
  next => exact puts_printStatement.steps
  next => exact puts_printlnStatement.steps
  next => exact puts_readStatement.steps
  next => exact .of_builds (rests_pure _)
  next => exact .of_builds (.lift (Check.builds_failAt _ _))

theorem steps_unnumbered : Steps here (advance >>= fun token => statementBody token >>= fun _ => do
    Check.record (.statement (← getThe Env).line token.text)
    if !(← accept (.separator .newline)) then
      failHere (.lineEndExpected token.text (← peekKind?))) [] := by
  refine .quietly rests_advance fun token => ?_
  refine .then_rests (steps_statementBody token) fun _ _ => .getThe_bind fun env => ?_
  refine .quietly (.lift (Check.rests_record rfl)) fun _ => .quietly (rests_accept _) fun _ => ?_
  exact .ite (.quietly rests_peekKind? fun _ => builds_failHere _) (rests_pure _)

theorem steps_statement : Steps here statement [] :=
  .then_leads puts_lineLabel fun _ _ => steps_unnumbered

theorem Yields.books_statement {s s' : TokenStream} {env env' : Env} {u : Unit}
    (h : Parse.statement.Yields s env u s' env') (books : env.Books) :
    env'.Books ∧ env'.collect = env.collect := by
  obtain ⟨_, s₁, _, label, rest⟩ := yields_bind.mp h
  obtain ⟨_, number, _, _, _, _, fresh, rfl⟩ := label.lineLabel
  have arrives := steps_unnumbered s₁ (env.labelled number) (env.labelled number) (.nil _)
  change Check.Arrives Env.Moves _ (Parse.exec _ s₁ _) at arrives
  rw [show Parse.exec _ s₁ (env.labelled number) = _ from rest] at arrives
  obtain ⟨_, moves, _⟩ := arrives
  refine ⟨moves.books (books.label fun mem => ?_), moves.collect⟩
  obtain ⟨line, mem, eq⟩ := mem_map.mp mem
  exact fresh line mem eq

end Parse

end LineBasic
