import LineBasic.Proofs.Parse.Building

/-!
What the parser notes for the check of the jumps: lines with their blocks, and jumps.
-/

namespace LineBasic

open List Node

/-- The line of a jump, its target and the blocks around it. -/
abbrev JumpNote := Nat × Nat × List Nat

/-- The jump in this place, if there is one. -/
def Site.jump? (x : Site) : Option JumpNote :=
  x.target.map fun target => (x.line, target, x.scopes)

def Parse.Jump.note (jump : Jump) : JumpNote :=
  (jump.line, jump.target, jump.scopes)

theorem Node.sitesBelow_eq_nil_of_tags {scopes : List Nat} {nodes : List Node}
    (h : ∀ tag ∈ tagsAll nodes, tag.2.1 = false) : sitesBelow scopes nodes = [] := by
  induction nodes with
  | nil => simp
  | cons node nodes ih =>
    obtain ⟨id, line, kind, children⟩ := node
    have plain : kind.isSpecial = false := h _ (mem_append_left _ (by
      rw [tags_mk]
      exact mem_cons_self ..))
    rw [sitesBelow_cons, sitesIn_other, ih fun tag mem => h tag (mem_append_right _ mem),
      append_nil]
    rintro vars rfl
    cases plain

namespace Parse.Env

/-- The notes of lines and jumps agree with the tree. -/
structure Books (env : Env) : Prop where
  distinct : (env.lines.map Prod.fst).Nodup
  marked : ∀ x ∈ env.sites, (x.line, x.scopes.head?) ∈ env.lines
  seats : ∀ line block, (line, some block) ∈ env.lines →
    ∃ x ∈ env.sites, x.line = line ∧ x.scopes.head? = some block
  jumps : env.jumps.toList.map Jump.note = env.sites.filterMap Site.jump?
  unwarned : env.leaving = []

/-- The current line has a number, and its statements stand in the innermost block. -/
structure Ledger (env : Env) : Prop extends Books env where
  known : env.line ∈ env.lines.map Prod.fst
  fits : ∀ x ∈ env.sites, x.line = env.line → x.scopes = env.chain

variable {start env env' : Env} {node : Node}

theorem Books.congr (books : env.Books) (sites : env'.sites = env.sites)
    (lines : env'.lines = env.lines) (jumps : env'.jumps = env.jumps)
    (leaving : env'.leaving = env.leaving) : env'.Books where
  distinct := lines ▸ books.distinct
  marked := sites ▸ lines ▸ books.marked
  seats := sites ▸ lines ▸ books.seats
  jumps := sites ▸ jumps ▸ books.jumps
  unwarned := leaving ▸ books.unwarned

theorem Within.books (h : start.Within env) (books : start.Books) : env.Books :=
  books.congr h.sites h.lines h.jumps h.leaving

theorem Within.ledger (h : start.Within env) (ledger : start.Ledger) : env.Ledger where
  toBooks := h.books ledger.toBooks
  known := h.line ▸ h.lines ▸ ledger.known
  fits := by
    rw [h.sites, h.line, h.chain]
    exact ledger.fits

/-- A statement of the current line is put into the innermost block. -/
structure Adds (env : Env) (x : Site) (env' : Env) : Prop where
  line : x.line = env.line
  scopes : x.scopes = env.chain
  sites : env'.sites = env.sites ++ [x]
  lines : env'.lines = env.markLine.lines
  jumps : env'.jumps.toList.map Jump.note = env.jumps.toList.map Jump.note ++ x.jump?.toList
  leaving : env'.leaving = env.leaving

variable {x : Site}

theorem Adds.books (h : env.Adds x env') (ledger : env.Ledger) : env'.Books where
  distinct := by
    rw [h.lines, map_fst_markLine]
    exact ledger.distinct
  marked := by
    have marked : (env.line, env.chain.head?) ∈ env.markLine.lines := by
      rw [head_chain]
      exact mem_markLine_self ledger.known
    rw [h.sites, h.lines]
    refine forall_mem_append.mpr ⟨fun y mem => ?_, by simpa [h.line, h.scopes] using marked⟩
    by_cases same : y.line = env.line
    · rw [same, ledger.fits y mem same]
      exact marked
    · exact mem_map.mpr ⟨_, ledger.marked y mem, if_neg same⟩
  seats line block mem := by
    rw [h.sites]
    rcases mem_markLine (h.lines ▸ mem) with ⟨rfl, rfl⟩ | mem
    · exact ⟨x, mem_append_right _ (mem_singleton_self _), h.line,
        h.scopes ▸ env.head_chain⟩
    · obtain ⟨y, mem, seat⟩ := ledger.seats line block mem
      exact ⟨y, mem_append_left _ mem, seat⟩
  jumps := by
    rw [h.jumps, h.sites, filterMap_append, ledger.jumps]
    cases found : x.jump? <;> simp [found]
  unwarned := h.leaving.trans ledger.unwarned

theorem Adds.ledger (h : env.Adds x env') (ledger : env.Ledger) (line : env'.line = env.line)
    (chain : env'.chain = env.chain) : env'.Ledger where
  toBooks := h.books ledger
  known := by
    rw [line, h.lines, map_fst_markLine]
    exact ledger.known
  fits := by
    rw [h.sites, line, chain]
    exact forall_mem_append.mpr ⟨ledger.fits, by simp [h.scopes]⟩

theorem adds_attached (plain : ∀ tag ∈ node.tags, tag.2 = (false, env.line)) :
    env.Adds (node.site env.chain env.lastLine) (env.attached node) := by
  have own := plain _ (by rw [tags, nodes_eq]; exact mem_cons_self ..)
  have below : sitesBelow env.chain node.children = [] := by
    refine sitesBelow_eq_nil_of_tags fun tag mem => ?_
    rw [plain tag (by cases node; rw [tags_mk]; exact mem_cons_of_mem _ mem)]
  have noJump := (Bool.or_eq_false_iff.mp (congrArg Prod.fst own)).2
  refine ⟨congrArg Prod.snd own, rfl, ?_, ?_, ?_, ?_⟩
  · show (env.appended node).sites = _
    rw [sites_appended, sites_eq, below]
  · cases env using Env.byBlocks <;> rfl
  · have none : (node.site env.chain env.lastLine).jump? = none := by
      simpa [Site.jump?, Node.site] using noJump
    rw [none, Option.toList_none, append_nil]
    cases env using Env.byBlocks <;> rfl
  · cases env using Env.byBlocks <;> rfl

theorem adds_goto (target : Nat) (position : Position) (number : Nat) :
    env.Adds (site env.chain env.lastLine ⟨number, env.line, .goto target, []⟩)
      ((env.attached ⟨number, env.line, .goto target, []⟩).jumped target position) := by
  refine ⟨rfl, rfl, ?_, ?_, ?_, ?_⟩
  · show (env.appended _).sites = _
    rw [sites_appended, sites_eq, sitesBelow_nil]
  · cases env using Env.byBlocks <;> rfl
  · rw [jumped, Array.toList_push, map_append]
    cases env using Env.byBlocks <;> rfl
  · cases env using Env.byBlocks <;> rfl

theorem adds_opened {opening : Opening} (line : opening.line = env.line)
    (plain : ∀ tag ∈ tagsAll opening.parts, tag.2.1 = false) :
    env.Adds ⟨opening.line, opening.kind.form, true, none, env.chain⟩
      (env.markLine.opened opening) := by
  refine ⟨line, rfl, ?_, rfl, (append_nil _).symm, rfl⟩
  show env.sites ++ (_ :: sitesBelow _ opening.parts) ++ sitesAll _ none [] = _
  rw [sitesBelow_eq_nil_of_tags plain, sitesAll_nil, append_nil]
  rfl

theorem Books.label {number : Nat} (books : env.Books) (fresh : number ∉ env.lines.map Prod.fst) :
    (env.labelled number).Ledger where
  distinct := nodup_cons.mpr ⟨fresh, books.distinct⟩
  marked y mem := mem_cons_of_mem _ (books.marked y mem)
  seats line block mem := by
    rcases mem_cons.mp mem with eq | mem
    · cases eq
    · exact books.seats line block mem
  jumps := books.jumps
  unwarned := books.unwarned
  known := mem_cons_self ..
  fits y mem eq := absurd (mem_map.mpr ⟨_, books.marked y mem, eq⟩) fresh

theorem books_start (collect : Bool) : ({ collect } : Env).Books where
  distinct := .nil
  marked := by simp [Env.sites, stackSites]
  seats := by simp
  jumps := by simp [Env.sites, stackSites]
  unwarned := rfl

/-- Once all blocks are closed and all jumps land, the state stands for a well-formed program, if no
two of its nodes have the same number. -/
theorem Sound.wellFormed (sound : env.Sound) (books : env.Books) (closed : env.blocks = [])
    (lands : ∀ jump ∈ env.jumps.toList, jump.Lands env.lines)
    (ids : env.toProgram.root.ids.Nodup) : env.toProgram.WellFormed := by
  have stack := sound.stack
  have owned := sound.owned
  have sites : env.sites = sitesAll [env.program.id] none env.program.statements.toList := by
    rw [Env.sites, closed, stackSites]
  have runs := sound.runs
  rw [closed] at stack
  rw [Env.owned, closed, stackOwned] at owned
  rw [sites] at runs
  refine ⟨⟨_, rfl⟩, sound.declared, sound.texts, stack, ?_, ids, runs, fun statement mem => ?_, ?_⟩
  · simpa [Env.toProgram, owned_mk, NodeKind.vars?] using owned
  · rw [← append_nil (List.map _ _)]
    refine lands_of_places env.toProgram.root [] ids (by simp) ?_ mem
    intro statement line target inner mem place
    obtain ⟨more, eq, below⟩ := place.scopes_eq
    obtain ⟨last, sub⟩ := @sites_subset_sitesAll [env.program.id] _ _ mem none
    obtain ⟨x, found, rfl, isTarget, rfl⟩ := place.mem_sites last
    have known : (x.line, target, x.scopes) ∈ env.jumps.toList.map Jump.note := by
      rw [books.jumps, sites]
      exact mem_filterMap.mpr ⟨x, sub found, by simp [Site.jump?, isTarget]⟩
    obtain ⟨jump, noted, eq'⟩ := mem_map.mp known
    obtain ⟨_, rfl, same⟩ : jump.line = x.line ∧ jump.target = target ∧ jump.scopes = x.scopes := by
      simpa [Jump.note] using eq'
    obtain ⟨block, around, found⟩ := lands jump noted
    rw [same] at around
    obtain ⟨y, seat, sameLine, head⟩ := books.seats _ _ (mem_of_lookup found)
    obtain ⟨other, inside⟩ := head?_eq_some_iff.mp head
    obtain ⟨statement', mem', seat⟩ := places_of_mem_sitesAll _ (sites ▸ seat)
    rw [sameLine, inside] at seat
    refine .inr ⟨block, around, ?_, statement', mem', _, other, seat⟩
    rw [eq] at around
    rcases mem_append.mp around with around | around
    · obtain ⟨part, partMem, inside⟩ := mem_idsAll.mp (below block around)
      exact mem_ids_of_child mem (mem_ids_of_child partMem inside)
    · rw [mem_singleton.mp around]
      exact id_mem_ids
  · intro block mem
    refine sound.tables block.table ?_
    rw [Env.tables, closed, stackTables]
    have mem : block ∈ env.toProgram.root :: blocksAll env.program.statements.toList := by
      simpa [Env.toProgram, blocks_mk, NodeKind.vars?] using mem
    rcases mem_cons.mp mem with rfl | mem
    · exact mem_cons_self ..
    · exact mem_cons_of_mem _ (mem_map_of_mem mem)

end Parse.Env

end LineBasic
