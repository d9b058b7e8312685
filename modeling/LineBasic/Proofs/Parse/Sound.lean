import LineBasic.Proofs.Parse.Statements
import LineBasic.Proofs.Parse.Modes

/-!
A parse that succeeds gives a well-formed program.
-/

namespace LineBasic

open List Node

def Program.vars (program : Program) : List Nat :=
  program.root.kind.vars?.getD []

/-- The variables of a scope name it as their own, and they come in the order of their
declarations. -/
structure IsTable (symbols : Array Variable) (table : Nat × List Nat) : Prop where
  owner : ∀ n ∈ table.2, ∃ v, symbols[n]? = some v ∧ v.scope = table.1
  sorted : table.2.Pairwise (· < ·)

/-- A program whose tree makes sense together with its tables. Numbers of nodes, variables and lines
are given once. -/
structure Program.WellFormed (program : Program) : Prop where
  isProgram : ∃ vars, program.root.kind = .program vars
  declared : ∀ (n : Nat) (v : Variable), program.symbols[n]? = some v → v.IsDeclared
  texts : ∀ (i : Nat) (literal : Literal), program.strings[i]? = some literal → literal.IsText i
  statements : ∀ statement ∈ program.root.children,
    statement.IsStatement program.symbols program.strings program.vars
  owned : program.root.owned.Perm (List.range program.symbols.size)
  ids : program.root.ids.Nodup
  runs : (((sitesAll [program.root.id] none program.root.children).filter Site.starts).map
    Site.line).Nodup
  lands : ∀ statement ∈ program.root.children,
    statement.Lands (program.root.children.map Node.line)
  tables : ∀ block ∈ program.root.blocks, IsTable program.symbols block.table

namespace Parse

namespace Opening

def id : Opening → Nat
  | loop id .. | branch id .. | otherwise id .. => id

def kind : Opening → NodeKind
  | loop .. => .loop
  | branch .. | otherwise .. => .branch

/-- The nodes before the open block. -/
def parts : Opening → List Node
  | loop _ _ start limit step => [start, limit, step]
  | branch _ _ condition => [condition]
  | otherwise _ _ condition consequence => [condition, consequence]

theorem close_eq (opening : Opening) (node : Node) :
    opening.close node = ⟨opening.id, opening.line, opening.kind, opening.parts ++ [node]⟩ := by
  cases opening <;> rfl

/-- The construct can be completed to a statement, if its last block is sound. -/
def IsSound (symbols : Array Variable) (strings : Array Literal) (visible : List Nat) :
    Opening → Prop
  | loop _ _ start limit step => start.IsStart symbols strings visible ∧
      limit.IsExpression symbols strings visible ∧ step.IsExpression symbols strings visible
  | branch _ _ condition => condition.IsComparison symbols strings visible
  | otherwise _ _ condition consequence => condition.IsComparison symbols strings visible ∧
      ∃ id line vars statements, consequence = ⟨id, line, .block vars, statements⟩ ∧
        ∀ node ∈ statements, node.IsStatement symbols strings (vars ++ visible)

end Opening

section Stack

variable (program : Block)

def stackScopes (blocks : List OpenBlock) : List Block :=
  blocks.map OpenBlock.block ++ [program]

def stackIds : List OpenBlock → List Nat
  | [] => program.id :: idsAll program.statements.toList
  | ⟨opening, block⟩ :: outer => stackIds outer ++ (opening.id :: idsAll opening.parts) ++
      block.id :: idsAll block.statements.toList

def stackOwned : List OpenBlock → List Nat
  | [] => program.vars ++ ownedAll program.statements.toList
  | ⟨opening, block⟩ :: outer => stackOwned outer ++ ownedAll opening.parts ++
      (block.vars ++ ownedAll block.statements.toList)

def stackSites : List OpenBlock → List Site
  | [] => sitesAll [program.id] none program.statements.toList
  | ⟨opening, block⟩ :: outer =>
    let scopes := (stackScopes program outer).map Block.id
    stackSites outer ++
      (⟨opening.line, opening.kind.form, true, none, scopes⟩ :: sitesBelow scopes opening.parts) ++
      sitesAll (block.id :: scopes) none block.statements.toList

def stackTables : List OpenBlock → List (Nat × List Nat)
  | [] => (program.id, program.vars) :: (blocksAll program.statements.toList).map Node.table
  | ⟨opening, block⟩ :: outer => stackTables outer ++ (blocksAll opening.parts).map Node.table ++
      (block.id, block.vars) :: (blocksAll block.statements.toList).map Node.table

/-- Every block of the stack holds statements that make sense where it stands. -/
def StackSound (symbols : Array Variable) (strings : Array Literal) : List OpenBlock → Prop
  | [] => ∀ node ∈ program.statements.toList, node.IsStatement symbols strings program.vars
  | ⟨opening, block⟩ :: outer =>
    let visible := (stackScopes program outer).flatMap Block.vars
    opening.IsSound symbols strings visible ∧
      (∀ node ∈ block.statements.toList, node.IsStatement symbols strings (block.vars ++ visible)) ∧
      StackSound symbols strings outer

end Stack

namespace Env

def ids (env : Env) : List Nat :=
  stackIds env.program env.blocks

def owned (env : Env) : List Nat :=
  stackOwned env.program env.blocks

def sites (env : Env) : List Site :=
  stackSites env.program env.blocks

def tables (env : Env) : List (Nat × List Nat) :=
  stackTables env.program env.blocks

/-- The numbers of the blocks around the current statement. -/
def chain (env : Env) : List Nat :=
  env.scopes.map Block.id

/-- The line that a statement put in now may go on with. -/
def lastLine (env : Env) : Option Nat :=
  lastLineAll none env.current.statements.toList

/-- What is known of the tree makes sense. -/
structure Sound (env : Env) : Prop where
  declared : ∀ (n : Nat) (v : Variable), env.symbols[n]? = some v → v.IsDeclared
  texts : ∀ (i : Nat) (literal : Literal), env.strings[i]? = some literal → literal.IsText i
  stack : StackSound env.program env.symbols env.strings env.blocks
  owned : env.owned.Perm (List.range env.symbols.size)
  runs : ((env.sites.filter Site.starts).map Site.line).Nodup
  known : ∀ x ∈ env.sites, x.line ∈ env.lines.map Prod.fst
  tables : ∀ table ∈ env.tables, IsTable env.symbols table

/-- Only the statement put in last can be on the current line. -/
structure Ready (env : Env) : Prop where
  known : env.line ∈ env.lines.map Prod.fst
  last : ∀ x ∈ env.sites, x.line = env.line → env.lastLine = some env.line

section Widen

variable (env : Env) (vars : List Nat)

theorem ids_widen : (env.widen vars).ids = env.ids := by
  cases env using Env.byBlocks <;> rfl

theorem sites_widen : (env.widen vars).sites = env.sites := by
  cases env using Env.byBlocks <;> rfl

theorem owned_widen : (env.widen vars).owned.Perm (env.owned ++ vars) := by
  have swap (front rest : List Nat) : (front ++ vars ++ rest).Perm (front ++ rest ++ vars) := by
    simpa using Perm.append_left front perm_append_comm
  obtain ⟨_, _, _, _, program, blocks⟩ := env
  cases blocks with
  | nil => exact swap program.vars _
  | cons innermost outer =>
    obtain ⟨opening, block⟩ := innermost
    simp only [owned, widen, updateCurrent, stackOwned]
    rw [← append_assoc, ← append_assoc, ← append_assoc]
    exact swap _ _

theorem lastLine_widen : (env.widen vars).lastLine = env.lastLine := by
  cases env using Env.byBlocks <;> rfl

theorem current_mem_tables : (env.current.id, env.current.vars) ∈ env.tables := by
  cases env using Env.byBlocks <;> simp [tables, stackTables, current]

theorem mem_tables_widen {vars : List Nat} {table : Nat × List Nat}
    (h : table ∈ (env.widen vars).tables) :
    table ∈ env.tables ∨ table = (env.current.id, env.current.vars ++ vars) := by
  obtain ⟨_, _, _, _, _, blocks⟩ := env
  cases blocks with
  | nil =>
    rcases mem_cons.mp h with rfl | h
    · exact .inr rfl
    · exact .inl (mem_cons_of_mem _ h)
  | cons innermost outer =>
    rcases mem_append.mp h with h | h
    · exact .inl (mem_append_left _ h)
    rcases mem_cons.mp h with rfl | h
    · exact .inr rfl
    · exact .inl (mem_append_right _ (mem_cons_of_mem _ h))

end Widen

theorem StackSound.widen {env : Env}
    (h : StackSound env.program env.symbols env.strings env.blocks) (vars : List Nat) :
    StackSound (env.widen vars).program env.symbols env.strings (env.widen vars).blocks := by
  obtain ⟨_, _, _, _, program, blocks⟩ := env
  cases blocks with
  | nil => exact fun node mem => (h node mem).mono .refl (subset_append_left ..)
  | cons innermost outer =>
    obtain ⟨opening, inside, rest⟩ := h
    refine ⟨opening, fun node mem => (inside node mem).mono .refl ?_, rest⟩
    exact append_subset.mpr ⟨subset_append_of_subset_left _ (subset_append_left ..),
      subset_append_right ..⟩

end Env

theorem Opening.IsSound.mono {symbols symbols' : Array Variable} {strings strings' : Array Literal}
    {visible : List Nat} {opening : Opening} (h : opening.IsSound symbols strings visible)
    (more : Extends symbols symbols' strings strings') :
    opening.IsSound symbols' strings' visible := by
  cases opening with
  | loop =>
    obtain ⟨start, limit, step⟩ := h
    exact ⟨start.mono more (Subset.refl _), limit.mono more (Subset.refl _),
      step.mono more (Subset.refl _)⟩
  | branch => exact IsComparison.mono more (Subset.refl _) h
  | otherwise =>
    obtain ⟨condition, id, line, vars, statements, rfl, inside⟩ := h
    exact ⟨condition.mono more (Subset.refl _), id, line, vars, statements, rfl,
      fun node mem => (inside node mem).mono more (Subset.refl _)⟩

theorem StackSound.mono {program : Block} {blocks : List OpenBlock}
    {symbols symbols' : Array Variable} {strings strings' : Array Literal}
    (h : StackSound program symbols strings blocks)
    (more : Extends symbols symbols' strings strings') :
    StackSound program symbols' strings' blocks := by
  induction blocks with
  | nil => exact fun node mem => (h node mem).mono more (Subset.refl _)
  | cons innermost outer ih =>
    obtain ⟨opening, inside, rest⟩ := h
    exact ⟨opening.mono more, fun node mem => (inside node mem).mono more (Subset.refl _),
      ih rest⟩

namespace Env

variable {env env' : Env} {node : Node}

section

variable (grows : env.Grows env')

include grows

theorem Grows.lines : env'.lines = env.lines := by
  rw [grows.frame]
  unfold withTables widen updateCurrent
  split <;> rfl

theorem Grows.sites : env'.sites = env.sites := by
  rw [grows.frame]
  exact env.sites_widen _

theorem Grows.ids : env'.ids = env.ids := by
  rw [grows.frame]
  exact env.ids_widen _

theorem Grows.lastLine : env'.lastLine = env.lastLine := by
  rw [grows.frame]
  exact env.lastLine_widen _

theorem Grows.isTable (sound : ∀ table ∈ env.tables, IsTable env.symbols table) :
    ∀ table ∈ env'.tables, IsTable env'.symbols table := by
  have old {table : Nat × List Nat} (mem : table ∈ env.tables) : ∀ n ∈ table.2,
      n < env.symbols.size ∧ ∃ v, env'.symbols[n]? = some v ∧ v.scope = table.1 := by
    intro n inside
    obtain ⟨v, found, scope⟩ := (sound table mem).owner n inside
    have bound := (Array.getElem?_eq_some_iff.mp found).1
    obtain ⟨v', found', _⟩ := grows.tables.shapes n v found
    rcases grows.scopes n v' found' with ⟨other, found'', same⟩ | ⟨new, _⟩
    · cases found.symm.trans found''
      exact ⟨bound, v', found', same.trans scope⟩
    · omega
  intro table mem
  rw [grows.frame] at mem
  rcases env.mem_tables_widen mem with mem | rfl
  · exact ⟨fun n inside => (old mem n inside).2, (sound table mem).sorted⟩
  · have own := env.current_mem_tables
    refine ⟨fun n inside => ?_, pairwise_append.mpr ⟨(sound _ own).sorted, ?_, ?_⟩⟩
    · rcases mem_append.mp inside with inside | new
      · exact (old own n inside).2
      · obtain ⟨low, high⟩ := mem_range'_1.mp new
        have bound : n < env'.symbols.size := by
          have := grows.count
          omega
        have found := Array.getElem?_eq_getElem bound
        rcases grows.scopes n _ found with ⟨_, found', _⟩ | ⟨_, scope⟩
        · have := (Array.getElem?_eq_some_iff.mp found').1
          omega
        · exact ⟨_, found, scope⟩
    · exact pairwise_lt_range'
    · intro n inside m new
      have := (old own n inside).1
      have := (mem_range'_1.mp new).1
      omega

/-- Grown tables leave the tree as it is, but for the variables of the innermost block. -/
theorem Grows.sound (sound : env.Sound) : env'.Sound := by
  have frame := grows.frame
  generalize eq : List.range' env.symbols.size (env'.symbols.size - env.symbols.size) = vars at frame
  refine ⟨grows.declared sound.declared, grows.texts sound.texts, ?_, ?_, ?_, ?_,
    grows.isTable sound.tables⟩
  · rw [show env'.program = (env.widen vars).program by rw [frame]; rfl,
      show env'.blocks = (env.widen vars).blocks by rw [frame]; rfl]
    exact StackSound.mono (StackSound.widen sound.stack vars) grows.tables
  · have owned : env'.owned = (env.widen vars).owned := by
      rw [frame]
      rfl
    have range : List.range env.symbols.size ++ vars = List.range env'.symbols.size := by
      have h := @range'_append 0 env.symbols.size (env'.symbols.size - env.symbols.size) 1
      rw [Nat.zero_add, Nat.one_mul, Nat.add_sub_cancel' grows.count, ← range_eq_range',
        ← range_eq_range', eq] at h
      exact h
    rw [owned, ← range]
    exact (env.owned_widen vars).trans (sound.owned.append_right vars)
  · rw [grows.sites]
    exact sound.runs
  · rw [grows.sites, grows.lines]
    exact sound.known

theorem Grows.ready (ready : env.Ready) : env'.Ready := by
  refine ⟨?_, ?_⟩
  · rw [grows.line, grows.lines]
    exact ready.known
  · rw [grows.line, grows.sites, grows.lastLine]
    exact ready.last

end

section Appended

variable (env : Env) (node : Node)

theorem ids_appended : (env.appended node).ids = env.ids ++ node.ids := by
  cases env using Env.byBlocks <;> simp [ids, appended, updateCurrent, stackIds]

theorem owned_appended : (env.appended node).owned = env.owned ++ node.owned := by
  cases env using Env.byBlocks <;> simp [owned, appended, updateCurrent, stackOwned]

theorem sites_appended :
    (env.appended node).sites = env.sites ++ node.sites env.chain env.lastLine := by
  cases env using Env.byBlocks <;> simp [sites, appended, updateCurrent, stackSites, stackScopes, sitesAll_append,
    chain, scopes, lastLine, current]

theorem tables_appended :
    (env.appended node).tables = env.tables ++ node.blocks.map Node.table := by
  cases env using Env.byBlocks <;> simp [tables, appended, updateCurrent, stackTables]

theorem lastLine_appended : (env.appended node).lastLine = node.lastLine := by
  cases env using Env.byBlocks <;> simp [lastLine, appended, updateCurrent, current, lastLineAll]

theorem chain_appended : (env.appended node).chain = env.chain := by
  cases env using Env.byBlocks <;> rfl

theorem head_chain : env.chain.head? = some env.current.id := by
  cases env using Env.byBlocks <;> rfl

end Appended

theorem StackSound.appended (h : StackSound env.program env.symbols env.strings env.blocks)
    (isStatement : node.IsStatement env.symbols env.strings env.visible) :
    StackSound (env.appended node).program env.symbols env.strings (env.appended node).blocks := by
  obtain ⟨_, _, _, _, program, blocks⟩ := env
  cases blocks with
  | nil =>
    intro other mem
    rcases mem_append.mp (Array.toList_push ▸ mem) with mem | mem
    · exact h other mem
    · rw [mem_singleton.mp mem]
      exact isStatement.mono .refl (by simp [visible, scopes, Env.appended, updateCurrent])
  | cons innermost outer =>
    obtain ⟨opening, inside, rest⟩ := h
    refine ⟨opening, fun other mem => ?_, rest⟩
    rcases mem_append.mp (Array.toList_push ▸ mem) with mem | mem
    · exact inside other mem
    · rw [mem_singleton.mp mem]
      exact isStatement

theorem map_fst_markLine (env : Env) : env.markLine.lines.map Prod.fst = env.lines.map Prod.fst := by
  simp only [markLine, map_map]
  refine map_congr_left fun line _ => ?_
  simp only [Function.comp]
  split <;> rfl

theorem mem_markLine {line block : Nat} (h : (line, some block) ∈ env.markLine.lines) :
    line = env.line ∧ block = env.current.id ∨ (line, some block) ∈ env.lines := by
  obtain ⟨⟨number, old⟩, mem, eq⟩ := mem_map.mp h
  simp only at eq
  split at eq
  next same =>
    cases eq
    exact .inl ⟨same, rfl⟩
  next =>
    cases eq
    exact .inr mem

theorem mem_markLine_self (known : env.line ∈ env.lines.map Prod.fst) :
    (env.line, some env.current.id) ∈ env.markLine.lines := by
  obtain ⟨⟨number, old⟩, mem, rfl⟩ := mem_map.mp known
  exact mem_map.mpr ⟨_, mem, if_pos rfl⟩

theorem Sound.attach (sound : env.Sound) (ready : env.Ready)
    (simple : node.IsSimple env.symbols env.strings env.visible) (line : node.line = env.line) :
    (env.attached node).Sound ∧ (env.attached node).Ready := by
  have sites : (env.attached node).sites = env.sites ++ [node.site env.chain env.lastLine] := by
    rw [← simple.sites_eq, ← sites_appended]
    rfl
  have lines : (env.attached node).lines.map Prod.fst = env.lines.map Prod.fst := by
    rw [attached, map_fst_markLine]
    unfold appended updateCurrent
    split <;> rfl
  refine ⟨⟨?_, ?_, ?_, ?_, ?_, ?_, ?_⟩, ?_, ?_⟩
  · simpa using sound.declared
  · simpa using sound.texts
  · simp only [symbols_attached, strings_attached]
    exact StackSound.appended sound.stack (.simple simple)
  · have owned : (env.attached node).owned = env.owned := by
      rw [← append_nil env.owned, ← simple.owned_eq, ← owned_appended]
      rfl
    rw [owned]
    simpa using sound.owned
  · rw [sites, filter_append, map_append, nodup_append]
    refine ⟨sound.runs, ?_, ?_⟩
    · rw [filter_cons, filter_nil]
      split <;> simp
    · intro l mem l' mem' eq
      rw [filter_cons, filter_nil] at mem'
      split at mem'
      next starts =>
        obtain ⟨x, found, rfl⟩ := mem_map.mp mem
        have same := ready.last x (mem_filter.mp found).1 (by
          rw [eq, mem_singleton.mp mem', ← line]
          rfl)
        simp [site, simple.isPlain.1, line, same] at starts
      next => cases mem'
  · rw [sites, lines]
    refine forall_mem_append.mpr ⟨sound.known, forall_mem_singleton.mpr ?_⟩
    rw [site, line]
    exact ready.known
  · have tables : (env.attached node).tables = env.tables := by
      rw [← append_nil env.tables, ← map_nil, ← simple.blocks_eq, ← tables_appended]
      rfl
    rw [tables]
    simpa using sound.tables
  · rw [lines]
    simpa using ready.known
  · intro x _ _
    have last : (env.attached node).lastLine = node.lastLine := by
      rw [← env.lastLine_appended]
      rfl
    rw [last, Node.lastLine, if_pos simple.isPlain.1, line]
    simp

theorem Sound.open {opening : Opening} (sound : env.Sound)
    (known : env.line ∈ env.lines.map Prod.fst) (unused : ∀ x ∈ env.sites, x.line ≠ env.line)
    (isSound : opening.IsSound env.symbols env.strings env.visible)
    (plain : ∀ part ∈ opening.parts, IsPlain part) (line : opening.line = env.line) :
    ({ env with size := env.size + 1 }.markLine.opened opening).Sound := by
  generalize eq : { env with size := env.size + 1 }.markLine.opened opening = env'
  have sites : env'.sites =
      env.sites ++ [⟨opening.line, opening.kind.form, true, none, env.chain⟩] := by
    subst env'
    show env.sites ++ (_ :: sitesBelow _ opening.parts) ++ sitesAll _ none [] = _
    rw [sitesBelow_eq_nil plain, sitesAll_nil, append_nil]
    rfl
  have owned : env'.owned = env.owned := by
    subst env'
    show env.owned ++ ownedAll opening.parts ++ ([] ++ ownedAll []) = _
    rw [ownedAll_eq_nil plain, ownedAll_nil, append_nil, append_nil, append_nil]
  refine ⟨?_, ?_, ?_, ?_, ?_, ?_, ?_⟩
  · subst env'
    exact sound.declared
  · subst env'
    exact sound.texts
  · subst env'
    exact ⟨isSound, fun _ mem => absurd mem not_mem_nil, sound.stack⟩
  · rw [owned]
    subst env'
    exact sound.owned
  · rw [sites, filter_append, map_append, nodup_append]
    refine ⟨sound.runs, by simp, ?_⟩
    rintro l mem l' mem' rfl
    obtain ⟨x, found, rfl⟩ := mem_map.mp mem
    have same : x.line = opening.line := by simpa using mem'
    exact unused x (mem_filter.mp found).1 (same.trans line)
  · have lines : env'.lines.map Prod.fst = env.lines.map Prod.fst := by
      subst env'
      exact map_fst_markLine { env with size := env.size + 1 }
    rw [sites, lines]
    refine forall_mem_append.mpr ⟨sound.known, forall_mem_singleton.mpr ?_⟩
    exact line ▸ known
  · have tables : env'.tables = env.tables ++ [(env.size + 1, [])] := by
      subst env'
      show env.tables ++ (blocksAll opening.parts).map Node.table ++
        (env.size + 1, []) :: (blocksAll []).map Node.table = _
      rw [blocksAll_eq_nil plain, blocksAll_nil, map_nil, append_nil]
    rw [tables]
    subst env'
    intro table mem
    rcases mem_append.mp mem with mem | mem
    · exact sound.tables table mem
    · rw [mem_singleton.mp mem]
      exact ⟨by simp, .nil⟩

/-- A state with the same tree, seen through another stack, is as sound. -/
theorem Sound.congr (sound : env.Sound) (symbols : env'.symbols = env.symbols)
    (strings : env'.strings = env.strings)
    (stack : StackSound env'.program env.symbols env.strings env'.blocks)
    (owned : env'.owned = env.owned) (sites : env'.sites = env.sites)
    (lines : env'.lines = env.lines)
    (tables : ∀ table ∈ env'.tables, table ∈ env.tables ∨ table.2 = []) : env'.Sound where
  declared := symbols ▸ sound.declared
  texts := strings ▸ sound.texts
  stack := by
    rw [symbols, strings]
    exact stack
  owned := by
    rw [owned, symbols]
    exact sound.owned
  runs := sites ▸ sound.runs
  known := by
    rw [sites, lines]
    exact sound.known
  tables table mem := by
    rw [symbols]
    rcases tables table mem with mem | empty
    · exact sound.tables table mem
    · exact ⟨by simp [empty], empty ▸ .nil⟩

theorem Opening.IsSound.isStatement {symbols : Array Variable} {strings : Array Literal}
    {visible : List Nat} {opening : Opening} {block : Block}
    (h : opening.IsSound symbols strings visible)
    (inside : ∀ node ∈ block.statements.toList,
      node.IsStatement symbols strings (block.vars ++ visible)) :
    (opening.close block.node).IsStatement symbols strings visible := by
  cases opening with
  | loop =>
    obtain ⟨start, limit, step⟩ := h
    exact .loop start limit step inside
  | branch => exact .branch h inside
  | otherwise =>
    obtain ⟨condition, _, _, _, _, rfl, consequence⟩ := h
    exact .branchElse condition consequence inside

theorem sites_close {opening : Opening} {block : Block} {outer : List OpenBlock}
    (eq : env.blocks = ⟨opening, block⟩ :: outer) :
    ({ env with blocks := outer }.appended (opening.close block.node)).sites = env.sites := by
  rw [sites_appended, Env.sites, Env.sites, eq, stackSites, Opening.close_eq, sites_eq,
    sitesBelow_append]
  cases opening <;>
    simp [Block.node, sitesIn_block, Node.site, Opening.kind, NodeKind.form, NodeKind.target?,
      Env.chain, Env.scopes, stackScopes]

theorem sites_otherwise {id line : Nat} {condition : Node} {consequence : Block}
    {outer : List OpenBlock} (eq : env.blocks = ⟨.branch id line condition, consequence⟩ :: outer) :
    ({ env with blocks := outer }.opened (.otherwise id line condition consequence.node)).sites =
      env.sites := by
  rw [Env.sites, Env.sites, eq]
  simp [opened, stackSites, Opening.parts, Opening.kind, Opening.line, Block.node, sitesIn_block]

theorem Sound.close {opening : Opening} {block : Block} {outer : List OpenBlock}
    (sound : env.Sound) (eq : env.blocks = ⟨opening, block⟩ :: outer) :
    ({ env with blocks := outer }.appended (opening.close block.node)).Sound := by
  have stack := sound.stack
  rw [eq] at stack
  obtain ⟨isSound, inside, rest⟩ := stack
  refine sound.congr ?_ ?_ ?_ ?_ ?_ ?_ ?_
  · unfold appended updateCurrent
    split <;> rfl
  · unfold appended updateCurrent
    split <;> rfl
  · exact @StackSound.appended { env with blocks := outer } _ rest
      (Opening.IsSound.isStatement isSound inside)
  · rw [owned_appended, Env.owned, Env.owned, eq, stackOwned, Opening.close_eq, owned_mk,
      ownedAll_append]
    cases opening <;> simp [Opening.kind, NodeKind.vars?, Block.node, owned_mk]
  · exact sites_close eq
  · unfold appended updateCurrent
    split <;> rfl
  · have tables : ({ env with blocks := outer }.appended (opening.close block.node)).tables =
        env.tables := by
      rw [tables_appended, Env.tables, Env.tables, eq, stackTables, Opening.close_eq, blocks_mk,
        blocksAll_append]
      cases opening <;> simp [Opening.kind, NodeKind.vars?, Block.node, blocks_mk, Node.table, Node.vars]
    rw [tables]
    exact fun _ mem => .inl mem

theorem Sound.otherwise {id line : Nat} {condition : Node} {consequence : Block}
    {outer : List OpenBlock} (sound : env.Sound)
    (eq : env.blocks = ⟨.branch id line condition, consequence⟩ :: outer) :
    ({ env with blocks := outer }.opened
      (.otherwise id line condition consequence.node)).Sound := by
  have stack := sound.stack
  rw [eq] at stack
  obtain ⟨isSound, inside, rest⟩ := stack
  refine sound.congr rfl rfl ⟨⟨isSound, _, _, _, _, rfl, inside⟩, by simp, rest⟩ ?_ ?_ rfl ?_
  · rw [Env.owned, Env.owned, eq]
    simp [opened, stackOwned, Opening.parts, Block.node, owned_mk, NodeKind.vars?]
  · exact sites_otherwise eq
  · have tables : ({ env with blocks := outer }.opened
        (.otherwise id line condition consequence.node)).tables = env.tables ++ [(env.size, [])] := by
      rw [Env.tables, Env.tables, eq]
      simp [opened, stackTables, Opening.parts, Block.node, blocks_mk, NodeKind.vars?, Node.table,
        Node.vars]
    rw [tables]
    intro table mem
    rcases mem_append.mp mem with mem | mem
    · exact .inl mem
    · exact .inr (by rw [mem_singleton.mp mem])

theorem Sound.label (sound : env.Sound) (number : Nat) : (env.labelled number).Sound :=
  { sound with known := fun x mem => mem_cons_of_mem _ (sound.known x mem) }

theorem Sound.unused (sound : env.Sound) {number : Nat}
    (fresh : ∀ line ∈ env.lines, line.1 ≠ number) :
    ∀ x ∈ (env.labelled number).sites, x.line ≠ (env.labelled number).line := by
  intro x mem eq
  obtain ⟨line, known, same⟩ := mem_map.mp (sound.known x mem)
  exact fresh line known (same.trans eq)

theorem Attaches.sound (h : env.Attaches env') (sound : env.Sound) (ready : env.Ready) :
    env'.Sound := by
  induction h with
  | done grows => exact grows.sound sound
  | attach grows simple _ line _ ih =>
    have next := Sound.attach (grows.sound sound) (grows.ready ready) simple line
    exact ih next.1 next.2

theorem Body.sound (h : env.Body env') (sound : env.Sound)
    (known : env.line ∈ env.lines.map Prod.fst) (unused : ∀ x ∈ env.sites, x.line ≠ env.line) :
    env'.Sound := by
  have ready : env.Ready := ⟨known, fun x mem eq => absurd eq (unused x mem)⟩
  cases h with
  | attaches h => exact h.sound sound ready
  | goto target position =>
    let numbered : Env := { env with size := env.size + 1 }
    have grows : env.Grows numbered := .numbered env
    have attached := (@Sound.attach numbered ⟨env.size, env.line, .goto target, []⟩
      (grows.sound sound) (grows.ready ready) .goto rfl).1
    exact { attached with }
  | loop grows isStart isLimit isStep =>
    refine Sound.open (grows.sound sound) ?_ ?_ ⟨isStart, isLimit, isStep⟩ ?_ rfl
    · rw [grows.line, grows.lines]
      exact known
    · rw [grows.line, grows.sites]
      exact unused
    · simp [Opening.parts, isStart.isPlain, IsExpression.isPlain isLimit,
        IsExpression.isPlain isStep]
  | branch grows isCondition =>
    refine Sound.open (grows.sound sound) ?_ ?_ isCondition ?_ rfl
    · rw [grows.line, grows.lines]
      exact known
    · rw [grows.line, grows.sites]
      exact unused
    · simp [Opening.parts, isCondition.isPlain]
  | otherwise eq => exact sound.otherwise eq
  | close eq => exact sound.close eq

theorem Line.sound (h : env.Line env') (sound : env.Sound) : env'.Sound := by
  obtain ⟨number, env₁, fresh, body, grows⟩ := h
  exact grows.sound (body.sound (sound.label number) (mem_cons_self ..) (sound.unused fresh))

theorem Lines.sound (h : env.Lines env') (sound : env.Sound) : env'.Sound := by
  induction h with
  | nil => exact sound
  | cons line _ ih => exact ih (line.sound sound)

theorem sound_start (collect : Bool) : ({ collect } : Env).Sound where
  declared n v h := by simp at h
  texts i literal h := by simp at h
  stack node mem := by simp at mem
  owned := by simp [Env.owned, stackOwned]
  runs := by simp [Env.sites, stackSites]
  known := by simp [Env.sites, stackSites]
  tables table mem := by
    have eq : table = (0, []) := by simpa [Env.tables, stackTables] using mem
    exact eq ▸ ⟨by simp, .nil⟩

end Env

theorem mem_of_lookup {α β : Type} [BEq α] [LawfulBEq α] {entries : List (α × β)} {key : α} {value : β}
    (h : entries.lookup key = some value) : (key, value) ∈ entries := by
  obtain ⟨before, after, rfl, _⟩ := lookup_eq_some_iff.mp h
  simp

end Parse

end LineBasic
