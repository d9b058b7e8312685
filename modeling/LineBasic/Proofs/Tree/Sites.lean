import LineBasic.Proofs.Tree.WellFormed

/-!
The statements of a tree in the order of the source, each with its line and the blocks around it.
-/

namespace LineBasic

open List

/-- What a statement is to the flow of control. -/
inductive Form where
  | simple | loop | branch
deriving DecidableEq

def NodeKind.form : NodeKind → Form
  | .loop => .loop
  | .branch => .branch
  | _ => .simple

/-- The line that a jump leads to. -/
def NodeKind.target? : NodeKind → Option Nat
  | .goto target => some target
  | _ => none

/-- A statement in its place. It starts its line unless it goes on with the line of the statement
before it. `scopes` are the blocks around it, innermost first. -/
structure Site where
  line : Nat
  form : Form
  starts : Bool
  target : Option Nat
  scopes : List Nat
deriving DecidableEq

namespace Node

/-- The line that the next statement may go on with. -/
def lastLine (node : Node) : Option Nat :=
  if node.kind.form = .simple then some node.line else none

/-- The place of a statement, after a statement on line `last`. -/
def site (scopes : List Nat) (last : Option Nat) (node : Node) : Site where
  line := node.line
  form := node.kind.form
  starts := node.kind.form ≠ .simple || last ≠ some node.line
  target := node.kind.target?
  scopes

mutual

/-- A statement and the statements in its blocks. -/
def sites (scopes : List Nat) (last : Option Nat) : Node → List Site
  | ⟨id, line, kind, children⟩ =>
    site scopes last ⟨id, line, kind, children⟩ :: sitesBelow scopes children

/-- The statements in the blocks among some nodes. -/
def sitesBelow (scopes : List Nat) : List Node → List Site
  | [] => []
  | node :: nodes => sitesIn scopes node ++ sitesBelow scopes nodes

/-- The statements in a block; other nodes hold none. -/
def sitesIn (scopes : List Nat) : Node → List Site
  | ⟨id, _, .block _, statements⟩ => sitesAll (id :: scopes) none statements
  | _ => []

/-- The statements of a block from some statement on. -/
def sitesAll (scopes : List Nat) (last : Option Nat) : List Node → List Site
  | [] => []
  | node :: nodes => sites scopes last node ++ sitesAll scopes node.lastLine nodes

end

mutual

/-- The variables that the blocks of a tree own. -/
def owned : Node → List Nat
  | ⟨_, _, kind, children⟩ => kind.vars?.getD [] ++ ownedAll children

def ownedAll : List Node → List Nat
  | [] => []
  | node :: nodes => owned node ++ ownedAll nodes

end

def vars (node : Node) : List Nat :=
  node.kind.vars?.getD []

/-- A scope as the table of the variables it owns, under its number. -/
def table (node : Node) : Nat × List Nat :=
  (node.id, node.vars)

mutual

/-- The scopes of a tree, each before those inside it. -/
def blocks : Node → List Node
  | ⟨id, line, kind, children⟩ =>
    (if kind.vars?.isSome then [⟨id, line, kind, children⟩] else []) ++ blocksAll children

def blocksAll : List Node → List Node
  | [] => []
  | node :: nodes => blocks node ++ blocksAll nodes

end

mutual

/-- A statement and the statements in its blocks, in the order of the source. -/
def steps : Node → List Node
  | ⟨id, line, kind, children⟩ => ⟨id, line, kind, children⟩ :: stepsBelow children

def stepsBelow : List Node → List Node
  | [] => []
  | node :: nodes => stepsIn node ++ stepsBelow nodes

def stepsIn : Node → List Node
  | ⟨_, _, .block _, statements⟩ => stepsAll statements
  | _ => []

def stepsAll : List Node → List Node
  | [] => []
  | node :: nodes => steps node ++ stepsAll nodes

end

section Equations

variable {scopes : List Nat} {last : Option Nat} {id line : Nat} {kind : NodeKind}
  {node : Node} {nodes others : List Node}

theorem sites_eq : sites scopes last node = site scopes last node :: sitesBelow scopes node.children := by
  cases node
  rw [sites]

@[simp] theorem sitesBelow_nil : sitesBelow scopes [] = [] := by
  rw [sitesBelow]

@[simp] theorem sitesBelow_cons :
    sitesBelow scopes (node :: nodes) = sitesIn scopes node ++ sitesBelow scopes nodes := by
  rw [sitesBelow]

theorem sitesBelow_append :
    sitesBelow scopes (nodes ++ others) = sitesBelow scopes nodes ++ sitesBelow scopes others := by
  induction nodes with
  | nil => simp
  | cons node nodes ih => simp [ih]

theorem sitesIn_block {vars : List Nat} :
    sitesIn scopes ⟨id, line, .block vars, nodes⟩ = sitesAll (id :: scopes) none nodes := by
  rw [sitesIn]

theorem sitesIn_other (h : ∀ vars, kind ≠ .block vars) :
    sitesIn scopes ⟨id, line, kind, nodes⟩ = [] := by
  unfold sitesIn
  split
  next vars _ _ eq =>
    cases eq
    exact absurd rfl (h _)
  next => rfl

@[simp] theorem sitesAll_nil : sitesAll scopes last [] = [] := by
  rw [sitesAll]

@[simp] theorem sitesAll_cons :
    sitesAll scopes last (node :: nodes) =
      sites scopes last node ++ sitesAll scopes node.lastLine nodes := by
  rw [sitesAll]

/-- What the statements of a block leave for the next one to go on with. -/
def lastLineAll (last : Option Nat) (nodes : List Node) : Option Nat :=
  nodes.getLast?.elim last lastLine

theorem sitesAll_append :
    sitesAll scopes last (nodes ++ others) =
      sitesAll scopes last nodes ++ sitesAll scopes (lastLineAll last nodes) others := by
  induction nodes generalizing last with
  | nil => rfl
  | cons node nodes ih =>
    rw [cons_append, sitesAll_cons, sitesAll_cons, ih, append_assoc]
    cases nodes <;> rfl

theorem owned_mk : owned ⟨id, line, kind, nodes⟩ = kind.vars?.getD [] ++ ownedAll nodes := by
  rw [owned]

@[simp] theorem ownedAll_nil : ownedAll [] = [] := by
  rw [ownedAll]

@[simp] theorem ownedAll_cons : ownedAll (node :: nodes) = owned node ++ ownedAll nodes := by
  rw [ownedAll]

@[simp] theorem ownedAll_append : ownedAll (nodes ++ others) = ownedAll nodes ++ ownedAll others := by
  induction nodes with
  | nil => simp
  | cons node nodes ih => simp [ih]

theorem blocks_mk : blocks ⟨id, line, kind, nodes⟩ =
    (if kind.vars?.isSome then [⟨id, line, kind, nodes⟩] else []) ++ blocksAll nodes := by
  rw [blocks]

@[simp] theorem blocksAll_nil : blocksAll [] = [] := by
  rw [blocksAll]

@[simp] theorem blocksAll_cons : blocksAll (node :: nodes) = blocks node ++ blocksAll nodes := by
  rw [blocksAll]

@[simp] theorem blocksAll_append :
    blocksAll (nodes ++ others) = blocksAll nodes ++ blocksAll others := by
  induction nodes with
  | nil => simp
  | cons node nodes ih => simp [ih]

theorem steps_eq : steps node = node :: stepsBelow node.children := by
  cases node
  rw [steps]

@[simp] theorem stepsBelow_nil : stepsBelow [] = [] := by
  rw [stepsBelow]

@[simp] theorem stepsBelow_cons :
    stepsBelow (node :: nodes) = stepsIn node ++ stepsBelow nodes := by
  rw [stepsBelow]

theorem stepsIn_block {vars : List Nat} :
    stepsIn ⟨id, line, .block vars, nodes⟩ = stepsAll nodes := by
  rw [stepsIn]

theorem stepsIn_other (h : ∀ vars, kind ≠ .block vars) : stepsIn ⟨id, line, kind, nodes⟩ = [] := by
  unfold stepsIn
  split
  next vars _ _ eq =>
    cases eq
    exact absurd rfl (h _)
  next => rfl

@[simp] theorem stepsAll_nil : stepsAll [] = [] := by
  rw [stepsAll]

@[simp] theorem stepsAll_cons : stepsAll (node :: nodes) = steps node ++ stepsAll nodes := by
  rw [stepsAll]

end Equations

/-- Every jump in a statement leads to a line of a block around the jump; `seats` are the lines of
the blocks around the statement. -/
inductive Lands : List Nat → Node → Prop
  | node {seats : List Nat} {node : Node} :
      (∀ target, node.kind = .goto target → target ∈ seats) →
      (∀ child ∈ node.children, ∀ vars, child.kind = .block vars → ∀ statement ∈ child.children,
        Lands (child.children.map Node.line ++ seats) statement) →
      Lands seats node

section Ids

variable {node child other : Node} {nodes : List Node} {i : Nat}

theorem ids_eq : node.ids = node.id :: idsAll node.children := by
  cases node
  rw [ids_mk]

theorem mem_idsAll : i ∈ idsAll nodes ↔ ∃ node ∈ nodes, i ∈ node.ids := by
  induction nodes with
  | nil => simp
  | cons node nodes ih => simp [ih]

theorem mem_blocksAll : child ∈ blocksAll nodes ↔ ∃ node ∈ nodes, child ∈ node.blocks := by
  induction nodes with
  | nil => simp
  | cons node nodes ih => simp [ih]

theorem id_mem_ids : node.id ∈ node.ids := by
  rw [ids_eq]
  exact mem_cons_self ..

theorem mem_ids_of_child (mem : child ∈ node.children) (h : i ∈ child.ids) : i ∈ node.ids := by
  rw [ids_eq]
  exact mem_cons_of_mem _ (mem_idsAll.mpr ⟨child, mem, h⟩)

theorem nodup_ids_of_mem (nodup : (idsAll nodes).Nodup) (mem : node ∈ nodes) : node.ids.Nodup := by
  induction nodes with
  | nil => cases mem
  | cons first nodes ih =>
    rw [idsAll_cons, nodup_append] at nodup
    rcases mem_cons.mp mem with rfl | mem
    · exact nodup.1
    · exact ih nodup.2.1 mem

theorem eq_of_mem_ids (nodup : (idsAll nodes).Nodup) (mem : node ∈ nodes) (mem' : other ∈ nodes)
    (h : i ∈ node.ids) (h' : i ∈ other.ids) : node = other := by
  induction nodes with
  | nil => cases mem
  | cons first nodes ih =>
    rw [idsAll_cons, nodup_append] at nodup
    obtain ⟨_, rest, apart⟩ := nodup
    rcases mem_cons.mp mem with rfl | inside <;>
      rcases mem_cons.mp mem' with rfl | inside'
    · rfl
    · exact absurd rfl (apart i h i (mem_idsAll.mpr ⟨other, inside', h'⟩))
    · exact absurd rfl (apart i h' i (mem_idsAll.mpr ⟨node, inside, h⟩))
    · exact ih rest inside inside'

end Ids

/-- A statement, or one in its blocks: its line, where it jumps to, and the blocks around it. -/
inductive Places : List Nat → Node → Nat → Option Nat → List Nat → Prop
  | own {scopes : List Nat} {node : Node} : Places scopes node node.line node.kind.target? scopes
  | inside {scopes inner vars : List Nat} {node child statement : Node} {line : Nat}
      {target : Option Nat} : child ∈ node.children → child.kind = .block vars →
      statement ∈ child.children → Places (child.id :: scopes) statement line target inner →
      Places scopes node line target inner

section Places

variable {scopes inner : List Nat} {last : Option Nat} {node : Node} {nodes : List Node}
  {line : Nat} {target : Option Nat} {x : Site}

mutual

theorem places_of_mem_sites (node : Node) {scopes : List Nat} {last : Option Nat}
    (h : x ∈ sites scopes last node) : Places scopes node x.line x.target x.scopes := by
  obtain ⟨id, line, kind, children⟩ := node
  rw [sites_eq, mem_cons] at h
  rcases h with rfl | h
  · exact .own
  · obtain ⟨child, mem, vars, block, statement, mem', h⟩ := places_of_mem_sitesBelow children h
    exact .inside mem block mem' h

theorem places_of_mem_sitesBelow (nodes : List Node) {scopes : List Nat}
    (h : x ∈ sitesBelow scopes nodes) :
    ∃ child ∈ nodes, ∃ vars, child.kind = .block vars ∧
      ∃ statement ∈ child.children, Places (child.id :: scopes) statement x.line x.target x.scopes := by
  cases nodes with
  | nil => simp at h
  | cons node nodes =>
    rw [sitesBelow_cons, mem_append] at h
    rcases h with h | h
    · obtain ⟨id, line, kind, children⟩ := node
      unfold sitesIn at h
      split at h
      next vars _ eq =>
        cases eq
        obtain ⟨statement, mem, h⟩ := places_of_mem_sitesAll children h
        exact ⟨_, mem_cons_self .., vars, rfl, statement, mem, h⟩
      next => cases h
    · obtain ⟨child, mem, h⟩ := places_of_mem_sitesBelow nodes h
      exact ⟨child, mem_cons_of_mem _ mem, h⟩

theorem places_of_mem_sitesAll (nodes : List Node) {scopes : List Nat} {last : Option Nat}
    (h : x ∈ sitesAll scopes last nodes) :
    ∃ node ∈ nodes, Places scopes node x.line x.target x.scopes := by
  cases nodes with
  | nil => simp at h
  | cons node nodes =>
    rw [sitesAll_cons, mem_append] at h
    rcases h with h | h
    · exact ⟨node, mem_cons_self .., places_of_mem_sites node h⟩
    · obtain ⟨other, mem, h⟩ := places_of_mem_sitesAll nodes h
      exact ⟨other, mem_cons_of_mem _ mem, h⟩

end

theorem sites_subset_sitesAll (mem : node ∈ nodes) (last : Option Nat) :
    ∃ last', sites scopes last' node ⊆ sitesAll scopes last nodes := by
  induction nodes generalizing last with
  | nil => cases mem
  | cons first nodes ih =>
    rw [sitesAll_cons]
    rcases mem_cons.mp mem with rfl | mem
    · exact ⟨last, subset_append_left ..⟩
    · obtain ⟨last', sub⟩ := ih mem first.lastLine
      exact ⟨last', subset_append_of_subset_right _ sub⟩

theorem sitesIn_subset_sitesBelow (mem : node ∈ nodes) :
    sitesIn scopes node ⊆ sitesBelow scopes nodes := by
  induction nodes with
  | nil => cases mem
  | cons first nodes ih =>
    rw [sitesBelow_cons]
    rcases mem_cons.mp mem with rfl | mem
    · exact subset_append_left ..
    · exact subset_append_of_subset_right _ (ih mem)

theorem Places.mem_sites (h : Places scopes node line target inner) (last : Option Nat) :
    ∃ x ∈ sites scopes last node, x.line = line ∧ x.target = target ∧ x.scopes = inner := by
  induction h generalizing last with
  | @own scopes node =>
    rw [sites_eq]
    exact ⟨_, mem_cons_self .., rfl, rfl, rfl⟩
  | @inside scopes inner vars node child statement line target mem block mem' _ ih =>
    obtain ⟨id, line, kind, children⟩ := child
    cases block
    obtain ⟨last', sub⟩ := @sites_subset_sitesAll (id :: scopes) statement children mem' none
    obtain ⟨x, h, same⟩ := ih last'
    rw [sites_eq]
    refine ⟨x, mem_cons_of_mem _ (sitesIn_subset_sitesBelow mem ?_), same⟩
    rw [sitesIn_block]
    exact sub h

/-- The blocks around a place below a statement are those around the statement and some in it. -/
theorem Places.scopes_eq (h : Places scopes node line target inner) :
    ∃ more, inner = more ++ scopes ∧ ∀ b ∈ more, b ∈ idsAll node.children := by
  induction h with
  | own => exact ⟨[], rfl, by simp⟩
  | @inside scopes inner vars node child statement line target mem block mem' _ ih =>
    obtain ⟨more, eq, sub⟩ := ih
    refine ⟨more ++ [child.id], by simp [eq], fun b hb => mem_idsAll.mpr ⟨child, mem, ?_⟩⟩
    rcases mem_append.mp hb with hb | hb
    · obtain ⟨other, mem'', hb⟩ := mem_idsAll.mp (sub b hb)
      exact mem_ids_of_child mem' (mem_ids_of_child mem'' hb)
    · rw [mem_singleton.mp hb]
      exact id_mem_ids

theorem Places.head {b : Nat} {other : List Nat}
    (h : Places scopes node line target (b :: other)) :
    line = node.line ∧ b :: other = scopes ∨ b ∈ idsAll node.children := by
  cases h with
  | own => exact .inl ⟨rfl, rfl⟩
  | @inside _ _ _ _ child statement _ _ mem _ mem' h =>
    refine .inr (mem_idsAll.mpr ⟨child, mem, ?_⟩)
    obtain ⟨more, eq, sub⟩ := h.scopes_eq
    cases more with
    | nil =>
      rw [nil_append, List.cons.injEq] at eq
      exact eq.1 ▸ id_mem_ids
    | cons first more =>
      rw [cons_append, List.cons.injEq] at eq
      have hb := sub first (mem_cons_self ..)
      rw [← eq.1] at hb
      obtain ⟨other, mem'', hb⟩ := mem_idsAll.mp hb
      exact mem_ids_of_child mem' (mem_ids_of_child mem'' hb)

theorem Places.descend {b : Nat} {other : List Nat} {child : Node}
    (h : Places scopes node line target (b :: other)) (nodup : node.ids.Nodup)
    (apart : ∀ b ∈ scopes, b ∉ node.ids) (mem : child ∈ node.children) (hb : b ∈ child.ids) :
    ∃ statement ∈ child.children, Places (child.id :: scopes) statement line target (b :: other) := by
  rw [ids_eq] at nodup
  have nodup := (nodup_cons.mp nodup).2
  cases h with
  | own => exact absurd (mem_ids_of_child mem hb) (apart b (mem_cons_self ..))
  | @inside _ _ _ _ child' statement _ _ mem' _ inner h =>
    have hb' : b ∈ child'.ids := by
      rcases h.head with ⟨_, eq⟩ | hb
      · cases eq
        exact id_mem_ids
      · obtain ⟨other, mem'', hb⟩ := mem_idsAll.mp hb
        exact mem_ids_of_child inner (mem_ids_of_child mem'' hb)
    obtain rfl := eq_of_mem_ids nodup mem mem' hb hb'
    exact ⟨statement, inner, h⟩

/-- If every jump in a block has its line right in a block around it, every jump lands. -/
theorem lands_of_places (block : Node) (scopes : List Nat) {seats : List Nat}
    (nodup : block.ids.Nodup) (apart : ∀ b ∈ scopes, b ∉ block.ids)
    (h : ∀ {statement line t inner}, statement ∈ block.children →
      Places (block.id :: scopes) statement line (some t) inner →
      t ∈ seats ∨ ∃ b ∈ inner, b ∈ block.ids ∧ ∃ statement ∈ block.children, ∃ target other,
        Places (block.id :: scopes) statement t target (b :: other))
    {statement : Node} (mem : statement ∈ block.children) :
    Lands (block.children.map Node.line ++ seats) statement := by
  have nodupBelow := nodup
  rw [ids_eq] at nodupBelow
  obtain ⟨apartBelow, nodupBelow⟩ := nodup_cons.mp nodupBelow
  -- a line right in this block is one of its lines
  have own {statement : Node} {t : Nat} {target : Option Nat} {other : List Nat}
      (mem : statement ∈ block.children)
      (seat : Places (block.id :: scopes) statement t target (block.id :: other)) :
      t ∈ block.children.map Node.line ++ seats := by
    rcases seat.head with ⟨rfl, _⟩ | inside
    · exact mem_append_left _ (mem_map_of_mem mem)
    · obtain ⟨part, mem', inside⟩ := mem_idsAll.mp inside
      exact absurd (mem_idsAll.mpr ⟨statement, mem, mem_ids_of_child mem' inside⟩) apartBelow
  have apartStatement : ∀ b ∈ block.id :: scopes, b ∉ statement.ids := by
    intro b hb inside
    rcases mem_cons.mp hb with rfl | hb
    · exact apartBelow (mem_idsAll.mpr ⟨statement, mem, inside⟩)
    · exact apart b hb (mem_ids_of_child mem inside)
  have nodupStatement := nodup_ids_of_mem nodupBelow mem
  refine .node (fun t eq => ?_) fun child childMem vars isBlock => ?_
  · have place : Places (block.id :: scopes) statement statement.line (some t)
        (block.id :: scopes) := by
      have : statement.kind.target? = some t := by rw [eq]; rfl
      exact this ▸ .own
    rcases h mem place with seat | ⟨b, hb, hb', statement', mem', target, other, seat⟩
    · exact mem_append_right _ seat
    · rcases mem_cons.mp hb with rfl | hb
      · exact own mem' seat
      · exact absurd hb' (apart b hb)
  · have childNodup : child.ids.Nodup := by
      rw [ids_eq] at nodupStatement
      exact nodup_ids_of_mem (nodup_cons.mp nodupStatement).2 childMem
    refine fun _ mem₁ => lands_of_places child (block.id :: scopes) childNodup
      (fun b hb inside => apartStatement b hb (mem_ids_of_child childMem inside)) ?_ mem₁
    intro statement₂ line t inner mem₂ place
    rcases h mem (.inside childMem isBlock mem₂ place) with
      seat | ⟨b, hb, hb', statement', mem', target, other, seat⟩
    · exact .inl (mem_append_right _ seat)
    obtain ⟨more, rfl, sub⟩ := place.scopes_eq
    by_cases inChild : b ∈ child.ids
    · have inStatement := mem_ids_of_child childMem inChild
      have same : statement = statement' := by
        rcases seat.head with ⟨_, eq⟩ | inside
        · cases eq
          exact absurd inStatement (apartStatement _ (mem_cons_self ..))
        · obtain ⟨part, partMem, inside⟩ := mem_idsAll.mp inside
          exact eq_of_mem_ids nodupBelow mem mem' inStatement (mem_ids_of_child partMem inside)
      subst same
      obtain ⟨statement₃, mem₃, seat⟩ := seat.descend nodupStatement apartStatement childMem inChild
      exact .inr ⟨b, hb, inChild, statement₃, mem₃, target, other, seat⟩
    · rcases mem_append.mp hb with hb | hb
      · obtain ⟨part, partMem, inside⟩ := mem_idsAll.mp (sub b hb)
        exact absurd (mem_ids_of_child mem₂ (mem_ids_of_child partMem inside)) inChild
      · rcases mem_cons.mp hb with rfl | hb
        · exact absurd id_mem_ids inChild
        · rcases mem_cons.mp hb with rfl | hb
          · exact .inl (own mem' seat)
          · exact absurd hb' (apart b hb)
termination_by sizeOf block
decreasing_by
  have := sizeOf_lt_of_mem mem
  have := sizeOf_lt_of_mem childMem
  cases statement
  cases block
  simp only [Node.mk.sizeOf_spec] at *
  omega

end Places

section Plain

variable {symbols : Array Variable} {strings : Array Literal} {visible scopes : List Nat}
  {node : Node} {nodes : List Node}

/-- A node without blocks: it owns no variables and holds no statements. -/
structure IsPlain (node : Node) : Prop where
  notBlock : ∀ vars, node.kind ≠ .block vars
  owned : node.owned = []
  sitesIn : ∀ scopes, sitesIn scopes node = []
  blocks : node.blocks = []

theorem ownedAll_eq_nil (h : ∀ node ∈ nodes, IsPlain node) : ownedAll nodes = [] := by
  induction nodes with
  | nil => simp
  | cons node nodes ih =>
    rw [ownedAll_cons, (h node (mem_cons_self ..)).owned,
      ih fun other mem => h other (mem_cons_of_mem _ mem), append_nil]

theorem blocksAll_eq_nil (h : ∀ node ∈ nodes, IsPlain node) : blocksAll nodes = [] := by
  induction nodes with
  | nil => simp
  | cons node nodes ih =>
    rw [blocksAll_cons, (h node (mem_cons_self ..)).blocks,
      ih fun other mem => h other (mem_cons_of_mem _ mem), append_nil]

theorem sitesBelow_eq_nil (h : ∀ node ∈ nodes, IsPlain node) : sitesBelow scopes nodes = [] := by
  induction nodes with
  | nil => simp
  | cons node nodes ih =>
    rw [sitesBelow_cons, (h node (mem_cons_self ..)).sitesIn,
      ih fun other mem => h other (mem_cons_of_mem _ mem), append_nil]

theorem isPlain_mk {id line : Nat} {kind : NodeKind} (noVars : kind.vars? = none)
    (h : ∀ node ∈ nodes, IsPlain node) : IsPlain ⟨id, line, kind, nodes⟩ := by
  have notBlock : ∀ vars, kind ≠ .block vars := by
    rintro vars rfl
    cases noVars
  refine ⟨notBlock, ?_, fun scopes => sitesIn_other notBlock, ?_⟩
  · rw [owned_mk, noVars, ownedAll_eq_nil h]
    rfl
  · rw [blocks_mk, noVars, blocksAll_eq_nil h]
    rfl

theorem IsExpression.isPlain (h : IsExpression symbols strings visible node) : IsPlain node := by
  induction h with
  | integer | decimal | text => exact isPlain_mk rfl (by simp)
  | reference _ _ _ _ ih => exact isPlain_mk rfl ih
  | operation _ _ _ lhs rhs => exact isPlain_mk rfl (by simp [lhs, rhs])

theorem IsFormat.isPlain (h : IsFormat strings node) : IsPlain node := by
  obtain ⟨_, _, _, _, _, _, rfl⟩ := h
  exact isPlain_mk rfl (by simp)

theorem IsStart.isPlain (h : IsStart symbols strings visible node) : IsPlain node := by
  obtain ⟨_, _, counter, value, hc, _, hv, rfl⟩ := h
  exact isPlain_mk rfl (by simp [hc.1.isPlain, hv.isPlain])

theorem IsComparison.isPlain (h : IsComparison symbols strings visible node) : IsPlain node := by
  obtain ⟨_, _, _, _, lhs, rhs, _, hl, hr, rfl⟩ := h
  exact isPlain_mk rfl (by simp [hl.isPlain, hr.isPlain])

section

variable (h : IsSimple symbols strings visible node)

include h

theorem IsSimple.isPlain :
    node.kind.form = .simple ∧ node.kind.vars? = none ∧ ∀ child ∈ node.children, IsPlain child := by
  cases h with
  | assign target value =>
    refine ⟨rfl, rfl, fun child mem => ?_⟩
    simp only [mem_cons, not_mem_nil, or_false] at mem
    rcases mem with rfl | rfl
    · exact target.1.isPlain
    · exact value.isPlain
  | goto => exact ⟨rfl, rfl, by simp⟩
  | print format arguments =>
    refine ⟨rfl, rfl, fun child mem => ?_⟩
    rcases mem_cons.mp mem with rfl | mem
    · exact format.isPlain
    · exact (arguments child mem).isPlain
  | println format argument =>
    refine ⟨rfl, rfl, fun child mem => ?_⟩
    rcases mem_cons.mp mem with rfl | mem
    · exact format.isPlain
    · exact (argument child (Option.mem_toList.mp mem)).1.isPlain
  | read format targets =>
    refine ⟨rfl, rfl, fun child mem => ?_⟩
    rcases mem_cons.mp mem with rfl | mem
    · exact format.isPlain
    · exact (targets child mem).1.isPlain

theorem IsSimple.sites_eq (last : Option Nat) :
    sites scopes last node = [site scopes last node] := by
  rw [Node.sites_eq, sitesBelow_eq_nil h.isPlain.2.2]

theorem IsSimple.blocks_eq : node.blocks = [] := by
  obtain ⟨_, noVars, plain⟩ := h.isPlain
  cases node
  rw [blocks_mk, blocksAll_eq_nil plain, noVars]
  rfl

theorem IsSimple.owned_eq : node.owned = [] := by
  obtain ⟨_, noVars, plain⟩ := h.isPlain
  cases node
  rw [owned_mk, ownedAll_eq_nil plain, noVars]
  rfl

end

end Plain

end Node

end LineBasic
