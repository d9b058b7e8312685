import LineBasic.Proofs.Parse.Types

/-!
The scopes of a program that has been read are those that scoping by the source gives.
-/

namespace LineBasic

open List

namespace Parse

/-- What a stack mentions, in the order in which it has been read. -/
def stackMentions (program : Block) : List OpenBlock → List Mention
  | [] => .scope program.id :: Node.mentionsAll program.statements.toList
  | ⟨opening, block⟩ :: outer => stackMentions program outer ++
      (Node.mentionsAll opening.parts ++
        .scope block.id :: Node.mentionsAll block.statements.toList)

namespace Env

def mentions (env : Env) : List Mention :=
  stackMentions env.program env.blocks

/-- The tables of the open blocks hold the variables that these blocks own. -/
structure Tabled (env : Env) : Prop where
  tables : ∀ block ∈ env.scopes, IsTable env.symbols (block.id, block.vars)
  complete : ∀ block ∈ env.scopes, ∀ (n : Nat) (v : Variable), env.symbols[n]? = some v →
    v.scope = block.id → n ∈ block.vars
  distinct : env.chain.Nodup

/-- The scopes of a state, with what has been mentioned and the scopes that are still to be opened. -/
def scoping (env : Env) (mentions : List Mention) (fresh : List Nat) : Scoping where
  vars := env.outlines
  opened := env.chain
  fresh
  mentions

section Stack

variable {program : Block}

theorem table_mem_stackTables {block : Block} : {blocks : List OpenBlock} →
    block ∈ stackScopes program blocks → (block.id, block.vars) ∈ stackTables program blocks
  | [], mem => by
    rw [mem_singleton.mp mem]
    exact mem_cons_self ..
  | ⟨opening, innermost⟩ :: outer, mem => by
    rcases mem_cons.mp mem with rfl | mem
    · exact mem_append_right _ (mem_cons_self ..)
    · exact mem_append_left _ (mem_append_left _ (table_mem_stackTables mem))

theorem exists_table_of_mem_owned {n : Nat} : {blocks : List OpenBlock} →
    n ∈ stackOwned program blocks → ∃ table ∈ stackTables program blocks, n ∈ table.2
  | [], mem => by
    rcases mem_append.mp mem with own | below
    · exact ⟨_, mem_cons_self .., own⟩
    · obtain ⟨block, isBlock, inside⟩ := Node.exists_block_of_ownedAll _ below
      exact ⟨block.table, mem_cons_of_mem _ (mem_map_of_mem isBlock), inside⟩
  | ⟨opening, innermost⟩ :: outer, mem => by
    simp only [stackOwned, stackTables, mem_append, mem_cons] at mem ⊢
    rcases mem with (earlier | part) | own | below
    · obtain ⟨table, isTable, inside⟩ := exists_table_of_mem_owned earlier
      exact ⟨table, .inl (.inl isTable), inside⟩
    · obtain ⟨block, isBlock, inside⟩ := Node.exists_block_of_ownedAll _ part
      exact ⟨block.table, .inl (.inr (mem_map_of_mem isBlock)), inside⟩
    · exact ⟨_, .inr (.inl rfl), own⟩
    · obtain ⟨block, isBlock, inside⟩ := Node.exists_block_of_ownedAll _ below
      exact ⟨block.table, .inr (.inr (mem_map_of_mem isBlock)), inside⟩

theorem ids_stackTables_sublist : (blocks : List OpenBlock) →
    Sublist ((stackTables program blocks).map Prod.fst) (stackIds program blocks)
  | [] => by
    simp only [stackTables, stackIds, map_cons, map_map]
    exact (Node.ids_blocksAll_sublist _).cons_cons _
  | ⟨opening, innermost⟩ :: outer => by
    simp only [stackTables, stackIds, map_append, map_cons, map_map]
    exact ((ids_stackTables_sublist outer).append ((Node.ids_blocksAll_sublist _).cons _)).append
      ((Node.ids_blocksAll_sublist _).cons_cons _)

theorem nodup_ids_stackScopes : {blocks : List OpenBlock} → (stackIds program blocks).Nodup →
    ((stackScopes program blocks).map Block.id).Nodup
  | [], _ => nodup_singleton _
  | ⟨opening, innermost⟩ :: outer, nodup => by
    have parts := nodup_append.mp nodup
    have before := (nodup_append.mp parts.1).1
    refine nodup_cons.mpr ⟨fun mem => ?_, nodup_ids_stackScopes before⟩
    obtain ⟨block, mem, same⟩ := mem_map.mp mem
    have earlier : block.id ∈ stackIds program outer :=
      (ids_stackTables_sublist outer).subset (mem_map_of_mem (table_mem_stackTables mem))
    exact parts.2.2 _ (mem_append_left _ earlier) _ (mem_cons_self ..) same

end Stack

section Lookup

variable {env env' : Env} {block : Block} {name : String} {number : Nat}

theorem getElem?_outlines (env : Env) (n : Nat) :
    env.outlines[n]? = env.symbols[n]?.map Variable.outline := by
  simp [outlines]

section

variable (h : env.Tabled) (mem : block ∈ env.scopes)

include h mem

theorem Tabled.any_name_iff {n : Nat} (inside : n ∈ block.vars) :
    env.symbols[n]?.any (fun v => v.name == name) = true ↔
      env.outlines[n]? = some (name, block.id) := by
  obtain ⟨v, found, owner⟩ := (h.tables block mem).owner n inside
  rw [getElem?_outlines, found]
  simp [Variable.outline, owner]

theorem Tabled.mem_vars {n : Nat}
    (declared : env.outlines[n]? = some (name, block.id)) : n ∈ block.vars := by
  rw [getElem?_outlines] at declared
  obtain ⟨v, found, eq⟩ := Option.map_eq_some_iff.mp declared
  exact h.complete block mem n v found (Prod.mk.inj eq).2

theorem Tabled.lookup?_eq (mentions : List Mention) (fresh : List Nat) :
    (env.scoping mentions fresh).lookup? name block.id = env.lookup? block name := by
  show env.outlines.findIdx? (fun entry => entry == (name, block.id)) = block.vars.find? _
  cases first : env.outlines.findIdx? fun entry => entry == (name, block.id) with
  | none =>
    refine (find?_eq_none.mpr fun n inside matched => ?_).symm
    have declared := mem_of_getElem? ((h.any_name_iff mem inside).mp matched)
    simpa using findIdx?_eq_none_iff.mp first _ declared
  | some n =>
    obtain ⟨bound, declared, least⟩ := findIdx?_eq_some_iff_getElem.mp first
    have declared : env.outlines[n]? = some (name, block.id) := by
      rw [getElem?_eq_getElem bound, beq_iff_eq.mp declared]
    have inside := h.mem_vars mem declared
    cases found : block.vars.find? fun n => env.symbols[n]?.any fun v => v.name == name with
    | none =>
      have unmatched := find?_eq_none.mp found n inside
      exact absurd ((h.any_name_iff mem inside).mpr declared) unmatched
    | some m =>
      obtain ⟨matched, before, after, vars, unmatched⟩ := find?_eq_some_iff_append.mp found
      have declared' := (h.any_name_iff mem (mem_of_find?_eq_some found)).mp matched
      have sorted := (h.tables block mem).sorted
      rw [vars] at inside sorted
      rcases mem_append.mp inside with earlier | later
      · have other := unmatched n earlier
        simp [(h.any_name_iff mem (vars ▸ mem_append_left _ earlier)).mpr declared] at other
      · rcases mem_cons.mp later with rfl | later
        · rfl
        · have smaller : m < n :=
            (pairwise_cons.mp (pairwise_append.mp sorted).2.1).1 n later
          have other := least m smaller
          obtain ⟨_, eq⟩ := List.getElem?_eq_some_iff.mp declared'
          simp [eq] at other

end

/-- Names stand for the variables that scoping gives them. -/
theorem Tabled.find?_eq (h : env.Tabled) (mentions : List Mention) (fresh : List Nat) :
    (env.scoping mentions fresh).find? name = env.resolve? name := by
  have blocks : ∀ (blocks : List Block), (∀ block ∈ blocks, block ∈ env.scopes) →
      (blocks.map Block.id).findSome? ((env.scoping mentions fresh).lookup? name) =
        blocks.findSome? fun block => env.lookup? block name := by
    intro blocks inside
    induction blocks with
    | nil => rfl
    | cons block blocks ih =>
      rw [map_cons, findSome?_cons, findSome?_cons,
        h.lookup?_eq (inside block (mem_cons_self ..)),
        ih fun other mem => inside other (mem_cons_of_mem _ mem)]
  exact blocks env.scopes fun _ mem => mem

end Lookup

section Tables

variable {env env' : Env}

theorem Alike.scopes (h : env.Alike env') : env'.scopes = env.scopes := by
  rw [h.frame]
  rfl

theorem Alike.chain (h : env.Alike env') : env'.chain = env.chain := by
  rw [Env.chain, Env.chain, h.scopes]

theorem Alike.mentions (h : env.Alike env') : env'.mentions = env.mentions := by
  rw [h.frame]
  rfl

theorem scope_of_outlines (same : env'.outlines = env.outlines) {n : Nat} {v : Variable}
    (found : env.symbols[n]? = some v) :
    ∃ v', env'.symbols[n]? = some v' ∧ v'.scope = v.scope := by
  have outline : env'.outlines[n]? = some v.outline := by
    rw [same, getElem?_outlines, found]
    rfl
  rw [getElem?_outlines] at outline
  obtain ⟨v', found', eq⟩ := Option.map_eq_some_iff.mp outline
  exact ⟨v', found', (Prod.mk.inj eq).2⟩

theorem Tabled.alike (h : env.Tabled) (alike : env.Alike env') : env'.Tabled where
  tables block mem := by
    have table := h.tables block (alike.scopes ▸ mem)
    refine ⟨fun n inside => ?_, table.sorted⟩
    obtain ⟨v, found, owner⟩ := table.owner n inside
    obtain ⟨v', found', same⟩ := scope_of_outlines alike.outlines found
    exact ⟨v', found', same.trans owner⟩
  complete block mem n v found owner := by
    obtain ⟨v', found', same⟩ := scope_of_outlines alike.outlines.symm found
    exact h.complete block (alike.scopes ▸ mem) n v' found' (same.trans owner)
  distinct := alike.chain ▸ h.distinct

theorem scopes_widen (vars : List Nat) :
    ∃ outer, env.scopes = env.current :: outer ∧
      (env.widen vars).scopes = ⟨env.current.id, env.current.line, env.current.vars ++ vars,
        env.current.statements⟩ :: outer := by
  obtain ⟨_, _, _, _, _, blocks⟩ := env
  cases blocks with
  | nil => exact ⟨[], rfl, rfl⟩
  | cons innermost outer => exact ⟨_, rfl, rfl⟩

section

variable (name : String) (dims : List Nat)

include name dims

theorem chain_declared :
    (env.declared name dims).chain = env.chain := by
  obtain ⟨outer, scopes, scopes'⟩ := env.scopes_widen [env.symbols.size]
  show (env.widen [env.symbols.size]).scopes.map Block.id = _
  rw [chain, scopes, scopes']
  rfl

theorem line_declared :
    (env.declared name dims).line = env.line := by
  cases env using Env.byBlocks <;> rfl

theorem mentions_declared :
    (env.declared name dims).mentions = env.mentions := by
  cases env using Env.byBlocks <;> rfl

theorem outlines_declared :
    (env.declared name dims).outlines = env.outlines ++ [(name, env.current.id)] := by
  simp [outlines, declared, Variable.outline]

end

theorem Tabled.declared (h : env.Tabled) (name : String) (dims : List Nat) :
    (env.declared name dims).Tabled := by
  obtain ⟨outer, scopes, scopes'⟩ := env.scopes_widen [env.symbols.size]
  have isScopes : (env.declared name dims).scopes = ⟨env.current.id, env.current.line,
      env.current.vars ++ [env.symbols.size], env.current.statements⟩ :: outer := scopes'
  have bound {block : Block} (mem : block ∈ env.scopes) {n : Nat} (inside : n ∈ block.vars) :
      n < env.symbols.size := by
    obtain ⟨v, found, _⟩ := (h.tables block mem).owner n inside
    exact (Array.getElem?_eq_some_iff.mp found).1
  have keeps {block : Block} (mem : block ∈ env.scopes) : ∀ n ∈ block.vars,
      ∃ v, (env.declared name dims).symbols[n]? = some v ∧ v.scope = block.id := by
    intro n inside
    obtain ⟨v, found, owner⟩ := (h.tables block mem).owner n inside
    refine ⟨v, ?_, owner⟩
    simp only [Env.declared, Array.getElem?_push, Nat.ne_of_lt (bound mem inside), if_false]
    exact found
  have current : env.current ∈ env.scopes := scopes ▸ mem_cons_self ..
  have inner {block : Block} (mem : block ∈ outer) : block ∈ env.scopes :=
    scopes ▸ mem_cons_of_mem _ mem
  refine ⟨fun block mem => ?_, fun block mem n v found owner => ?_, ?_⟩
  · rw [isScopes] at mem
    rcases mem_cons.mp mem with rfl | mem
    · constructor
      · intro n inside
        rcases mem_append.mp inside with inside | inside
        · exact keeps current n inside
        · rw [mem_singleton.mp inside]
          exact ⟨⟨name, dims, env.current.id, none, none⟩, by simp [Env.declared], rfl⟩
      · refine pairwise_append.mpr ⟨(h.tables _ current).sorted, by simp, ?_⟩
        intro n inside m last
        rw [mem_singleton.mp last]
        exact bound current inside
    · exact ⟨keeps (inner mem), (h.tables block (inner mem)).sorted⟩
  · have distinct : env.current.id ∉ outer.map Block.id := by
      have nodup := h.distinct
      rw [Env.chain, scopes, map_cons, nodup_cons] at nodup
      exact nodup.1
    simp only [Env.declared, Array.getElem?_push] at found
    rw [isScopes] at mem
    split at found
    next last =>
      cases found
      rcases mem_cons.mp mem with rfl | mem
      · exact mem_append_right _ (by simp [last])
      · exact absurd (mem_map.mpr ⟨block, mem, owner.symm⟩) distinct
    next =>
      rcases mem_cons.mp mem with rfl | mem
      · exact mem_append_left _ (h.complete _ current n v found owner)
      · exact h.complete block (inner mem) n v found owner
  · rw [chain_declared]
    exact h.distinct

theorem Names.tabled {name : String} {number : Nat} (h : env.Names name env' number)
    (tabled : env.Tabled) : env'.Tabled := by
  cases h with
  | known _ alike => exact tabled.alike alike
  | new _ alike => exact (tabled.declared name []).alike alike

theorem Attaches.ids (h : env.Attaches env') : env.ids <+: env'.ids := by
  induction h with
  | done grows => exact grows.ids ▸ prefix_rfl
  | attach grows _ _ _ _ ih => exact (grows.ids ▸ ⟨_, (ids_appended ..).symm⟩ : _ <+: _).trans ih

theorem Body.ids (h : env.Body env') : env.ids <+: env'.ids := by
  cases h with
  | attaches h => exact h.ids
  | goto => exact ⟨_, (ids_appended { env with size := env.size + 1 } _).symm⟩
  | loop grows => exact grows.ids ▸ ⟨_, (append_assoc ..).symm⟩
  | branch grows => exact grows.ids ▸ ⟨_, (append_assoc ..).symm⟩
  | otherwise eq =>
    refine ⟨[env.size], ?_⟩
    rw [Env.ids, Env.ids, eq]
    simp [opened, stackIds, Opening.id, Opening.parts, Block.node, Node.ids_mk]
  | close eq =>
    rw [ids_appended, Env.ids, Env.ids, eq, stackIds, Opening.close_eq, Node.ids_mk,
      Node.idsAll_append]
    simp [Block.node, Node.ids_mk]

theorem Line.ids (h : env.Line env') : env.ids <+: env'.ids := by
  obtain ⟨number, env₁, _, body, grows⟩ := h
  exact grows.ids ▸ body.ids

theorem Lines.ids (h : env.Lines env') : env.ids <+: env'.ids := by
  induction h with
  | nil => exact prefix_rfl
  | cons line _ ih => exact line.ids.trans ih

theorem Sound.tabled (sound : env.Sound) (ids : env.ids.Nodup) : env.Tabled where
  tables block mem := sound.tables _ (table_mem_stackTables mem)
  complete block mem n v found owner := by
    have bound := (Array.getElem?_eq_some_iff.mp found).1
    have owned : n ∈ env.owned := sound.owned.mem_iff.mpr (mem_range.mpr bound)
    obtain ⟨table, isTable, inside⟩ := exists_table_of_mem_owned owned
    obtain ⟨v', found', owner'⟩ := (sound.tables table isTable).owner n inside
    cases found.symm.trans found'
    have nodup := ids.sublist (ids_stackTables_sublist env.blocks)
    have same : table = (block.id, block.vars) :=
      inj_on_of_nodup_map nodup isTable (table_mem_stackTables mem) (owner'.symm.trans owner)
    rwa [same] at inside
  distinct := nodup_ids_stackScopes ids

theorem Names.line {name : String} {number : Nat} (h : env.Names name env' number) :
    env'.line = env.line := by
  cases h with
  | known _ alike => exact alike.line
  | new _ alike => rw [alike.line, line_declared]

theorem Names.mentions {name : String} {number : Nat} (h : env.Names name env' number) :
    env'.mentions = env.mentions := by
  cases h with
  | known _ alike => exact alike.mentions
  | new _ alike => rw [alike.mentions, mentions_declared]

theorem Targets.mentions {actions : List NameAction} {nodes : List Node}
    (h : env.Targets actions nodes env') : env'.mentions = env.mentions := by
  induction h with
  | nil => rfl
  | cons writes _ ih =>
    obtain ⟨number, named, _⟩ := writes.target
    rw [ih, named.mentions]

theorem mentions_appended (node : Node) :
    (env.appended node).mentions = env.mentions ++ node.mentions := by
  cases env using Env.byBlocks <;> simp [mentions, appended, updateCurrent, stackMentions]

theorem mentions_attached (node : Node) :
    (env.attached node).mentions = env.mentions ++ node.mentions :=
  mentions_appended node

theorem mentions_opened (opening : Opening) : (env.opened opening).mentions =
    env.mentions ++ (Node.mentionsAll opening.parts ++ [.scope env.size]) := by
  simp [mentions, opened, stackMentions]

end Tables

section Acts

variable {env env' : Env} {before : List Mention} {fresh : List Nat}

theorem scoping_congr (outlines : env'.outlines = env.outlines) (chain : env'.chain = env.chain) :
    env'.scoping = env.scoping := by
  funext mentions fresh
  rw [scoping, scoping, outlines, chain]

theorem Tabled.uses (h : env.Tabled) {names : List String} {mentions : List Mention}
    (resolved : env.resolved names = mentions.map some) :
    (names.map NameAction.use).foldlM (fun scoping action => scoping.act env.line action)
      (env.scoping before fresh) = some (env.scoping (before ++ mentions) fresh) := by
  induction names generalizing before mentions with
  | nil =>
    cases mentions with
    | nil => simp [scoping]
    | cons => cases resolved
  | cons name names ih =>
    cases mentions with
    | nil => cases resolved
    | cons mention mentions =>
      obtain ⟨first, rest⟩ := List.cons.inj resolved
      obtain ⟨number, found, rfl⟩ := Option.map_eq_some_iff.mp first
      have used : (env.scoping before fresh).act env.line (.use name) =
          some (env.scoping (before ++ [.refer env.line number]) fresh) := by
        rw [Scoping.act, h.find?_eq, found]
        rfl
      rw [map_cons, foldlM_cons, used, Option.bind_eq_bind, Option.bind_some, ih rest,
        append_assoc]
      rfl

theorem Tabled.mapM_find? (h : env.Tabled) {names : List String} {mentions : List Mention}
    (resolved : env.resolved names = mentions.map some) :
    ∃ numbers, names.mapM (env.scoping before fresh).find? = some numbers ∧
      mentions = numbers.map (.refer env.line) := by
  induction names generalizing mentions with
  | nil =>
    cases mentions with
    | nil => exact ⟨[], rfl, rfl⟩
    | cons => cases resolved
  | cons name names ih =>
    cases mentions with
    | nil => cases resolved
    | cons mention mentions =>
      obtain ⟨first, rest⟩ := List.cons.inj resolved
      obtain ⟨number, found, rfl⟩ := Option.map_eq_some_iff.mp first
      obtain ⟨numbers, eq, rfl⟩ := ih rest
      refine ⟨number :: numbers, ?_, rfl⟩
      rw [mapM_cons, h.find?_eq, found, eq]
      rfl

/-- A name that is written is mentioned before the names beside it; a new one is declared. -/
theorem Tabled.writes (h : env.Tabled) {name : String} {names : List String} {number : Nat}
    {mentions : List Mention} (named : env.Names name env' number)
    (resolved : some (.refer env.line number) :: env.resolved names = mentions.map some) :
    (env.scoping before fresh).act env.line (.write name names) =
      some (env'.scoping (before ++ mentions) fresh) := by
  cases mentions with
  | nil => cases resolved
  | cons mention mentions =>
    obtain ⟨first, rest⟩ := List.cons.inj resolved
    cases first
    obtain ⟨numbers, read, rfl⟩ := @Tabled.mapM_find? env before fresh h _ _ rest
    cases named with
    | known found alike =>
      rw [Scoping.act, read, h.find?_eq, found, scoping_congr alike.outlines alike.chain]
      rfl
    | new absent alike =>
      have chain : env'.chain = env.chain := alike.chain.trans (chain_declared name [])
      have outlines : env'.outlines = env.outlines ++ [(name, env.current.id)] :=
        alike.outlines.trans (outlines_declared name [])
      have innermost : (env.scoping before fresh).opened.head? = some env.current.id := env.head_chain
      have number : (env.scoping before fresh).vars.length = env.symbols.size := by
        simp [scoping, Env.outlines]
      rw [Scoping.act, read, h.find?_eq, absent]
      simp only [Option.bind_eq_bind, Option.bind_some, Scoping.declare, innermost, Option.map_some,
        Scoping.refer, number]
      simp [scoping, outlines, chain]

theorem Targets.acts {actions : List NameAction} {nodes : List Node}
    (h : env.Targets actions nodes env') (tabled : env.Tabled) :
    actions.foldlM (fun scoping action => scoping.act env.line action) (env.scoping before fresh) =
      some (env'.scoping (before ++ Node.mentionsAll nodes) fresh) := by
  induction h generalizing before with
  | nil => simp
  | @cons env env₁ env' name names node actions nodes writes _ ih =>
    obtain ⟨number, named, resolved⟩ := writes.target
    rw [foldlM_cons, tabled.writes named resolved, Option.bind_eq_bind, Option.bind_some,
      ← named.line,
      ih (named.tabled tabled), append_assoc, Node.mentionsAll_cons]

theorem scoping_attached (node : Node) : (env.attached node).scoping = env.scoping :=
  scoping_congr (by rw [outlines, outlines, symbols_attached]) (chain_appended ..)

theorem Elements.acts {name : String} {number : Nat} {indices : List (List Nat)}
    (h : Elements number env indices env')
    (found : ∀ mentions fresh, (env.scoping mentions fresh).find? name = some number) :
    (List.replicate indices.length (.use name)).foldlM (fun scoping action => scoping.act env.line action)
      (env.scoping env.mentions fresh) = some (env'.scoping env'.mentions fresh) := by
  induction h with
  | nil => rfl
  | @cons env env₁ env' node index indices element _ ih =>
    have alike := element.alike
    have same : (env₁.attached node).scoping = env.scoping :=
      (scoping_attached node).trans (scoping_congr alike.outlines alike.chain)
    have mentions : (env₁.attached node).mentions = env.mentions ++ [.refer env.line number] := by
      rw [mentions_attached, element.mentions, alike.mentions]
    have line : (env₁.attached node).line = env.line := by
      rw [line_attached, alike.line]
    rw [same, mentions, line] at ih
    rw [length_cons, replicate_succ, foldlM_cons, Scoping.act, found]
    exact ih found

/-- An array is declared under a name that its scope does not know, and stands for it from then on. -/
theorem Tabled.declares (tabled : env.Tabled) {name : String}
    (absent : env.lookup? env.current name = none) (dims : List Nat) :
    (env.scoping before fresh).act env.line (.declare name) =
        some ((env.declared name dims).scoping before fresh) ∧
      ((env.declared name dims).scoping before fresh).find? name = some env.symbols.size := by
  have current : env.current ∈ env.scopes := by
    obtain ⟨outer, scopes, _⟩ := env.scopes_widen []
    exact scopes ▸ mem_cons_self ..
  have unknown : (env.scoping before fresh).lookup? name env.current.id = none := by
    rw [tabled.lookup?_eq current, absent]
  have innermost : (env.scoping before fresh).opened.head? = some env.current.id := env.head_chain
  obtain ⟨outer, chain⟩ := head?_eq_some_iff.mp innermost
  constructor
  · simp only [Scoping.act, innermost, Option.bind_eq_bind, Option.bind_some, unknown,
      Option.isSome_none, Bool.false_eq_true, if_false, Scoping.declare, Option.map_some]
    simp [scoping, outlines_declared, chain_declared]
  · have opened : ((env.declared name dims).scoping before fresh).opened = env.current.id :: outer := by
      rw [← chain]
      exact chain_declared name dims
    have found : ((env.declared name dims).scoping before fresh).lookup? name env.current.id =
        some env.symbols.size := by
      have before : env.outlines.findIdx? (fun entry => entry == (name, env.current.id)) = none :=
        unknown
      simp only [Scoping.lookup?, scoping, outlines_declared, findIdx?_append, before]
      simp [outlines]
    rw [Scoping.find?, opened, findSome?_cons, found]

theorem act_enter (opening : Opening) (line : Nat) :
    (env.scoping (env.mentions ++ Node.mentionsAll opening.parts) (env.size :: fresh)).act line .enter =
      some ((env.opened opening).scoping (env.opened opening).mentions fresh) := by
  rw [mentions_opened, ← append_assoc]
  rfl

theorem act_enter_of_mentions {opening : Opening} {line : Nat} {mentions : List Mention}
    (h : env'.Quiet env)
    (parts : mentions = env'.mentions ++ Node.mentionsAll opening.parts) :
    (env'.scoping mentions ((env.size + 1) :: fresh)).act line .enter =
      some (({ env with size := env.size + 1 }.markLine.opened opening).scoping
        ({ env with size := env.size + 1 }.markLine.opened opening).mentions fresh) := by
  subst parts
  rw [← scoping_congr h.alike.outlines h.alike.chain, ← h.alike.mentions]
  exact @act_enter { env with size := env.size + 1 }.markLine fresh opening line

theorem mentions_closed {opening : Opening} {block : Block} {outer : List OpenBlock}
    (eq : env.blocks = ⟨opening, block⟩ :: outer) : env.mentions =
      ({ env with blocks := outer } : Env).mentions ++
        (Node.mentionsAll opening.parts ++ block.node.mentions) := by
  rw [Block.node, Node.mentions_block, mentions, eq]
  rfl

theorem act_leave {opening : Opening} {block : Block} {outer : List OpenBlock}
    (eq : env.blocks = ⟨opening, block⟩ :: outer) (line : Nat) :
    (env.scoping before fresh).act line .leave =
      some (({ env with blocks := outer } : Env).scoping before fresh) := by
  simp [Scoping.act, Scoping.leave, scoping, chain, scopes, eq, outlines]

theorem mentions_close (opening : Opening) (node : Node) :
    (opening.close node).mentions = Node.mentionsAll opening.parts ++ node.mentions := by
  have other : Node.mention? ⟨opening.id, opening.line, opening.kind, opening.parts ++ [node]⟩ =
      none := by
    cases opening <;> rfl
  rw [opening.close_eq, Node.mentions_other other]
  simp

/-- What a statement does with names is what its tokens say. -/
theorem Does.acts {actions : List NameAction} (h : env.Does actions env') (tabled : env.Tabled) :
    ∃ scopes, ∀ fresh, actions.foldlM (fun scoping action => scoping.act env.line action)
      (env.scoping env.mentions (scopes ++ fresh)) = some (env'.scoping env'.mentions fresh) := by
  cases h with
  | nothing => exact ⟨[], fun _ => rfl⟩
  | goto target position =>
    have mentions : (({ env with size := env.size + 1 }.attached
        ⟨env.size, env.line, .goto target, []⟩).jumped target position).mentions = env.mentions := by
      have attached := @mentions_attached { env with size := env.size + 1 }
        ⟨env.size, env.line, .goto target, []⟩
      rw [Node.mentions_other rfl, Node.mentionsAll_nil, append_nil] at attached
      exact attached
    have same : (({ env with size := env.size + 1 }.attached
        ⟨env.size, env.line, .goto target, []⟩).jumped target position).scoping = env.scoping :=
      @scoping_attached { env with size := env.size + 1 } _
    refine ⟨[], fun fresh => ?_⟩
    rw [mentions, same]
    rfl
  | @say env₁ names node said =>
    refine ⟨[], fun fresh => ?_⟩
    rw [mentions_attached, scoping_attached, said.quiet.alike.mentions,
      scoping_congr said.quiet.alike.outlines said.quiet.alike.chain]
    exact tabled.uses said.mentions
  | @write env₁ name names node writes =>
    obtain ⟨number, named, resolved⟩ := writes.target
    refine ⟨[], fun fresh => ?_⟩
    rw [mentions_attached, scoping_attached, named.mentions, foldlM_cons,
      nil_append, tabled.writes named resolved]
    rfl
  | @read env₁ env₂ actions targets node quiet reads mentioned leads =>
    refine ⟨[], fun fresh => ?_⟩
    rw [mentions_attached, scoping_attached, reads.mentions, quiet.alike.mentions, mentioned,
      ← quiet.line, ← scoping_congr quiet.alike.outlines quiet.alike.chain]
    exact reads.acts (tabled.alike quiet.alike)
  | @dim env₁ _ name dims count absent quiet elements =>
    have same : env₁.scoping = (env.declared name dims).scoping :=
      scoping_congr quiet.alike.outlines quiet.alike.chain
    have line : env₁.line = env.line := quiet.line.trans (line_declared name dims)
    have mentions : env₁.mentions = env.mentions :=
      quiet.alike.mentions.trans (mentions_declared name dims)
    refine ⟨[], fun fresh => ?_⟩
    have acts := @Elements.acts env₁ env' fresh name _ _ elements fun mentions fresh => by
      rw [same]
      exact (tabled.declares absent dims).2
    rw [same, line, mentions] at acts
    rw [foldlM_cons, (tabled.declares absent dims).1]
    exact acts
  | @loop env₁ env₂ name names names' start limit step writes quiet resolved' _ _ =>
    obtain ⟨number, named, resolved⟩ := writes.target
    refine ⟨[env₂.size + 1], fun fresh => ?_⟩
    have uses := @Tabled.uses env₁ (env.mentions ++ start.mentions) ((env₂.size + 1) :: fresh)
      (named.tabled tabled) _ _ resolved'
    rw [named.line] at uses
    have parts : env.mentions ++ start.mentions ++ Node.mentionsAll [limit, step] =
        env₁.mentions ++ Node.mentionsAll
          (Opening.loop env₂.size env₂.line start limit step).parts := by
      simp [named.mentions, Opening.parts]
    rw [foldlM_append, foldlM_cons, tabled.writes named resolved]
    show List.foldlM _ (env₁.scoping _ ((env₂.size + 1) :: fresh)) _ >>= _ = _
    rw [uses, Option.bind_eq_bind, Option.bind_some, foldlM_cons,
      act_enter_of_mentions quiet parts]
    rfl
  | @branch env₁ names condition said =>
    refine ⟨[env₁.size + 1], fun fresh => ?_⟩
    have uses := @Tabled.uses env env.mentions ((env₁.size + 1) :: fresh) tabled _ _ said.mentions
    have parts : env.mentions ++ condition.mentions =
        env.mentions ++ Node.mentionsAll (Opening.branch env₁.size env₁.line condition).parts := by
      simp [Opening.parts]
    rw [foldlM_append]
    show List.foldlM _ (env.scoping _ ((env₁.size + 1) :: fresh)) _ >>= _ = _
    rw [uses, Option.bind_eq_bind, Option.bind_some, foldlM_cons,
      act_enter_of_mentions said.quiet parts]
    rfl
  | @otherwise id line condition consequence outer eq =>
    refine ⟨[env.size], fun fresh => ?_⟩
    have enter := @act_enter { env with blocks := outer } fresh
      (.otherwise id line condition consequence.node) env.line
    have parts : env.mentions = ({ env with blocks := outer } : Env).mentions ++
        Node.mentionsAll (Opening.otherwise id line condition consequence.node).parts := by
      rw [mentions_closed eq]
      simp [Opening.parts]
    rw [foldlM_cons, act_leave eq, Option.bind_eq_bind, Option.bind_some, foldlM_cons, parts]
    exact congrArg (· >>= fun scoping => List.foldlM _ scoping []) enter
  | @close opening block outer eq =>
    refine ⟨[], fun fresh => ?_⟩
    have mentions : ({ env with blocks := outer }.appended (opening.close block.node)).mentions =
        env.mentions := by
      rw [mentions_appended, mentions_close, mentions_closed eq]
    have same : ({ env with blocks := outer }.appended (opening.close block.node)).scoping =
        ({ env with blocks := outer } : Env).scoping :=
      @scoping_attached { env with blocks := outer } _
    rw [foldlM_cons, act_leave eq, mentions, same]
    rfl

theorem Runs.acts {lines : List (List Token)} (h : env.Runs lines env') (sound : env.Sound)
    (ids : env'.ids.Nodup) :
    ∃ scopes, ∀ fresh, lines.foldlM Scoping.line (env.scoping env.mentions (scopes ++ fresh)) =
      some (env'.scoping env'.mentions fresh) := by
  induction h with
  | nil => exact ⟨[], fun _ => rfl⟩
  | @cons env env₁ env' _ lines isLine acts others ih =>
    have earlier : env.ids.Nodup := ids.sublist (isLine.ids.trans others.lines.ids).sublist
    cases acts with
    | @mk env₂ _ label number body isNumber _ does quiet =>
      obtain ⟨scopes, first⟩ := does.acts ((sound.label number).tabled earlier)
      obtain ⟨scopes', rest⟩ := ih (isLine.sound sound) ids
      refine ⟨scopes ++ scopes', fun fresh => ?_⟩
      have line : (env.scoping env.mentions (scopes ++ (scopes' ++ fresh))).line (label :: body) =
          some (env₁.scoping env₁.mentions (scopes' ++ fresh)) := by
        rw [Scoping.line, isNumber, quiet.alike.mentions,
          scoping_congr quiet.alike.outlines quiet.alike.chain]
        exact first (scopes' ++ fresh)
      rw [foldlM_cons, append_assoc, line]
      exact rest fresh

end Acts

end Env

end Parse

theorem Program.WellFormed.refersWithin {program : Program} (h : program.WellFormed) :
    program.root.RefersWithin [] := by
  obtain ⟨vars, isProgram⟩ := h.isProgram
  have statements := h.statements
  obtain ⟨⟨id, line, kind, children⟩, size, symbols, strings⟩ := program
  cases isProgram
  refine @Node.RefersWithin.within [] vars id line _ children rfl fun node mem => ?_
  rw [append_nil]
  exact .statement (statements node mem)

theorem Program.WellFormed.mem_vars_iff {program : Program} (h : program.WellFormed) {block : Node}
    (isBlock : block ∈ program.root.blocks) {n : Nat} :
    n ∈ block.vars ↔ ∃ v, program.symbols[n]? = some v ∧ v.scope = block.id := by
  constructor
  · exact (h.tables block isBlock).owner n
  · rintro ⟨v, found, owner⟩
    have bound := (Array.getElem?_eq_some_iff.mp found).1
    have owned : n ∈ program.root.owned := h.owned.mem_iff.mpr (mem_range.mpr bound)
    obtain ⟨other, isOther, inside⟩ := Node.exists_block_of_owned _ owned
    obtain ⟨v', found', owner'⟩ := (h.tables other isOther).owner n inside
    cases found.symm.trans found'
    rwa [Node.eq_of_id_eq h.ids isBlock isOther (owner.symm.trans owner')]

/-- Names are resolved by scopes. Reading the source from its start, every name that is read stands
for the variable of the innermost open scope that knows it; a name that is written is declared in the
innermost scope if no open scope knows it, and an array always is, its scope not knowing the name.
The variables that are declared so, and those that are so referred to, are the program's. No scope
has two variables of one name, and what refers to a variable lies in its scope. -/
theorem names_resolved {source : String} {collect : Bool} {program : Program}
    (h : (parseSource source collect).result = .ok program) :
    ∃ tokens, tokenize source = .ok tokens ∧
      Scoping.run program.root.scopes tokens = some
        { vars := program.symbols.toList.map Variable.outline
          opened := [program.root.id]
          fresh := []
          mentions := program.root.mentions } ∧
      program.root.scopes.Nodup ∧ (program.symbols.toList.map Variable.outline).Nodup ∧
      (∀ block ∈ program.root.blocks, ∀ number, number ∈ block.vars ↔
        ∃ v, program.symbols[number]? = some v ∧ v.scope = block.id) ∧
      ∀ node ∈ program.root.nodes, ∀ number, node.kind = .reference number →
        ∃ block ∈ program.root.blocks, number ∈ block.vars ∧ node ∈ block.nodes := by
  have wellFormed := wellFormed_of_parseSource h
  obtain ⟨tokens, lines, env, scanned, pieces, runs, closed, rfl⟩ := runs_of_parseSource h
  have ids : env.ids.Nodup := by
    rw [← Parse.Env.ids_tree, Parse.Env.tree, closed, Parse.plug, append_nil]
    exact wellFormed.ids
  obtain ⟨scopes, acts⟩ := runs.acts (Parse.Env.sound_start false) ids
  have mentions : env.mentions = env.toProgram.root.mentions := by
    rw [Parse.Env.mentions, closed]
    exact Node.mentions_program.symm
  have run : Scoping.run (0 :: scopes) tokens = some (env.scoping env.mentions []) := by
    have whole := acts []
    rw [append_nil] at whole
    rw [Scoping.run, pieces]
    show List.foldlM Scoping.line (({ collect := false } : Parse.Env).scoping [.scope 0] scopes)
      (lines ++ [[]]) = _
    rw [foldlM_append]
    exact (congrArg (· >>= fun scoping => List.foldlM Scoping.line scoping [[]]) whole)
  have accounts := Scoping.accounts_of_run run
  have opened : env.toProgram.root.scopes = 0 :: scopes := by
    rw [Node.scopes, ← mentions, ← accounts.scopes]
    exact (append_nil _).symm
  refine ⟨tokens, scanned, ?_, ?_, accounts.nodup, fun block isBlock number =>
    wellFormed.mem_vars_iff isBlock, fun node mem number refers => ?_⟩
  · rw [opened, run, mentions]
    simp [Parse.Env.scoping, Parse.Env.chain, Parse.Env.scopes, closed,
      Parse.Env.outlines, Parse.Env.toProgram]
  · rw [Node.scopes_eq]
    exact wellFormed.ids.sublist (Node.ids_blocks_sublist _)
  · rcases wellFormed.refersWithin node mem number refers with known | ⟨block, inside, owns, around⟩
    · cases known
    · have isBlock : block ∈ env.toProgram.root.blocks := by
        rw [Node.blocks_eq_filter]
        refine mem_filter.mpr ⟨inside, ?_⟩
        cases vars : block.kind.vars? with
        | none => simp [Node.vars, vars] at owns
        | some => rfl
      exact ⟨block, isBlock, owns, around⟩

/-- An array hides the variable of its name until the block that declares it is closed, and each
branch declares a variable of its own. -/
theorem names_resolved_of_branches :
    ∃ program, (parseSource ("10 LET X = 1\n20 FOR I = 1 TO 2\n30 DIM X[2]\n" ++
        "40 IF I > X[0] THEN\n50 LET Y = X[1]\n60 ELSE\n70 LET Y = I\n80 END\n90 END\n" ++
        "100 LET Y = X") false).result = .ok program ∧
      program.symbols.toList.map Variable.outline =
        [("X", 0), ("I", 0), ("X", 10), ("Y", 16), ("Y", 21), ("Y", 0)] ∧
      ∃ tokens, tokenize ("10 LET X = 1\n20 FOR I = 1 TO 2\n30 DIM X[2]\n" ++
          "40 IF I > X[0] THEN\n50 LET Y = X[1]\n60 ELSE\n70 LET Y = I\n80 END\n90 END\n" ++
          "100 LET Y = X") = .ok tokens ∧
        Scoping.run program.root.scopes tokens = some
          { vars := program.symbols.toList.map Variable.outline
            opened := [program.root.id]
            fresh := []
            mentions := program.root.mentions } ∧
        program.root.scopes.Nodup ∧ (program.symbols.toList.map Variable.outline).Nodup ∧
        (∀ block ∈ program.root.blocks, ∀ number, number ∈ block.vars ↔
          ∃ v, program.symbols[number]? = some v ∧ v.scope = block.id) ∧
        ∀ node ∈ program.root.nodes, ∀ number, node.kind = .reference number →
          ∃ block ∈ program.root.blocks, number ∈ block.vars ∧ node ∈ block.nodes := by
  generalize hs : "10 LET X = 1\n20 FOR I = 1 TO 2\n30 DIM X[2]\n" ++
    "40 IF I > X[0] THEN\n50 LET Y = X[1]\n60 ELSE\n70 LET Y = I\n80 END\n90 END\n" ++
    "100 LET Y = X" = source
  have accepted : ((parseSource source false).result.toOption.map fun program =>
      program.symbols.toList.map Variable.outline) =
      some [("X", 0), ("I", 0), ("X", 10), ("Y", 16), ("Y", 21), ("Y", 0)] := by
    subst hs
    decide +kernel
  obtain ⟨program, parsed, declared⟩ := exists_ok_of_map accepted
  exact ⟨program, parsed, declared, names_resolved parsed⟩

end LineBasic
