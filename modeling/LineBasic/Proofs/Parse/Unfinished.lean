import LineBasic.Proofs.Parse.Sound
import LineBasic.Proofs.Tree.Enclosure

/-!
The tree that a parse has built so far, where open blocks stand as if they were closed.
-/

namespace LineBasic

open List Node

namespace Parse

section Stack

variable (program : Block)

def stackChain (blocks : List OpenBlock) : List Nat :=
  (stackScopes program blocks).map Block.id

/-- The chains of all scopes, open or closed, in the order in which they begin. -/
def stackChains : List OpenBlock → List (List Nat)
  | [] => [program.id] :: chainsAll [program.id] program.statements.toList
  | ⟨opening, block⟩ :: outer =>
    let around := stackChain program outer
    stackChains outer ++ chainsAll around opening.parts ++
      (block.id :: around) :: chainsAll (block.id :: around) block.statements.toList

/-- The tree of a stack whose innermost block ends with `nodes`. -/
def plug : List OpenBlock → List Node → Node
  | [], nodes =>
    ⟨program.id, program.line, .program program.vars, program.statements.toList ++ nodes⟩
  | ⟨opening, block⟩ :: outer, nodes => plug outer [opening.close
      ⟨block.id, block.line, .block block.vars, block.statements.toList ++ nodes⟩]

variable {program} {blocks : List OpenBlock} {nodes : List Node} {arena : Arena}

theorem id_plug : (plug program blocks nodes).id = program.id := by
  induction blocks generalizing nodes with
  | nil => rfl
  | cons innermost outer ih => exact ih

theorem ids_plug : (plug program blocks nodes).ids = stackIds program blocks ++ idsAll nodes := by
  induction blocks generalizing nodes with
  | nil => simp [plug, stackIds, ids_mk]
  | cons innermost outer ih =>
    rw [plug, ih, stackIds, Opening.close_eq]
    simp [ids_mk]

theorem stackChain_subset : stackChain program blocks ⊆ stackIds program blocks := by
  induction blocks with
  | nil => simp [stackChain, stackScopes, stackIds]
  | cons innermost outer ih =>
    rw [stackIds]
    refine cons_subset.mpr ⟨by simp, fun n mem => ?_⟩
    exact mem_append_left _ (mem_append_left _ (ih mem))

theorem chains_plug : (plug program blocks nodes).chains [] =
    stackChains program blocks ++ chainsAll (stackChain program blocks) nodes := by
  induction blocks generalizing nodes with
  | nil => simp [plug, stackChains, stackChain, stackScopes, Node.chains, NodeKind.vars?]
  | cons innermost outer ih =>
    obtain ⟨opening, block⟩ := innermost
    have noScope : ¬ opening.kind.vars?.isSome := by
      cases opening <;> simp [Opening.kind, NodeKind.vars?]
    rw [plug, ih, stackChains, Opening.close_eq, chainsAll_cons, chains_other noScope]
    simp [Node.chains, stackChain, stackScopes, NodeKind.vars?]

/-- The upper one of two scopes is the last child of a loop or a branch that stands in the lower
one. -/
def Hangs (arena : Arena) (upper lower : Nat) : Prop :=
  ∃ construct above link, (upper, link) ∈ arena ∧ (∃ vars, link.kind = .block vars) ∧
    link.parent = some construct ∧ (construct, above) ∈ arena ∧
    (above.kind = .loop ∨ above.kind = .branch) ∧ above.children.getLast? = some upper ∧
    above.parent = some lower

theorem linksAll_subset {node : Node} (sub : nodes ⊆ node.children) (parent : Option Nat) :
    linksAll (some node.id) nodes ⊆ node.links parent := by
  intro entry mem
  obtain ⟨child, mem, inside⟩ := mem_linksAll.mp mem
  rw [links_eq]
  exact mem_cons_of_mem _ (mem_linksAll.mpr ⟨child, sub mem, inside⟩)

theorem links_close {opening : Opening} {node : Node} {parent : Option Nat} :
    node.links (some opening.id) ⊆ (opening.close node).links parent ∧
      (opening.id, (opening.close node).link parent) ∈ (opening.close node).links parent := by
  rw [Opening.close_eq]
  constructor
  · intro entry mem
    rw [links_eq]
    exact mem_cons_of_mem _ (mem_linksAll.mpr ⟨node, by simp, mem⟩)
  · rw [links_eq]
    exact mem_cons_self ..

theorem links_plug {number : Nat} (head : (stackChain program blocks).head? = some number) :
    linksAll (some number) nodes ⊆ (plug program blocks nodes).links none := by
  induction blocks generalizing nodes number with
  | nil =>
    cases head
    exact @linksAll_subset nodes (plug program [] nodes) (subset_append_right ..) none
  | cons innermost outer ih =>
    obtain ⟨opening, block⟩ := innermost
    cases head
    obtain ⟨lower, around⟩ : ∃ lower, (stackChain program outer).head? = some lower :=
      Option.isSome_iff_exists.mp (by simp [stackChain, stackScopes])
    let body : Node := ⟨block.id, block.line, .block block.vars, block.statements.toList ++ nodes⟩
    intro entry mem
    refine ih around (mem_linksAll.mpr ⟨opening.close body, mem_singleton_self _, ?_⟩)
    exact links_close.1 (@linksAll_subset nodes body (subset_append_right ..) _ _ mem)

theorem mem_links_plug {opening : Opening} {body : Node} {lower : Nat}
    (around : (stackChain program blocks).head? = some lower) :
    (body.id, body.link (some opening.id)) ∈
        (plug program blocks [opening.close body]).links none ∧
      (opening.id, (opening.close body).link (some lower)) ∈
        (plug program blocks [opening.close body]).links none := by
  have inside {entry : Nat × Link} (mem : entry ∈ (opening.close body).links (some lower)) :
      entry ∈ (plug program blocks [opening.close body]).links none :=
    links_plug around (mem_linksAll.mpr ⟨_, mem_singleton_self _, mem⟩)
  obtain ⟨below, own⟩ := @links_close opening body (some lower)
  refine ⟨inside (below ?_), inside own⟩
  rw [links_eq]
  exact mem_cons_self ..

/-- Every open block is the last child of a construct that stands in the block around it. -/
theorem hangs_plug (sub : (plug program blocks nodes).links none ⊆ arena) :
    (stackChain program blocks).IsChain (Hangs arena) := by
  induction blocks generalizing nodes with
  | nil => exact .singleton _
  | cons innermost outer ih =>
    obtain ⟨opening, block⟩ := innermost
    let body : Node := ⟨block.id, block.line, .block block.vars, block.statements.toList ++ nodes⟩
    have rest : (stackChain program outer).IsChain (Hangs arena) := ih sub
    refine isChain_cons.mpr ⟨fun lower around => ?_, rest⟩
    obtain ⟨own, above⟩ := @mem_links_plug program outer opening body lower around
    refine ⟨opening.id, (opening.close body).link (some lower), body.link (some opening.id),
      sub own, ⟨block.vars, rfl⟩, rfl, sub above, ?_, ?_, rfl⟩
    · cases opening with
      | loop => exact .inl rfl
      | branch | otherwise => exact .inr rfl
    · rw [Opening.close_eq]
      simp [link, body]

end Stack

namespace Env

def tree (env : Env) : Node :=
  plug env.program env.blocks []

def chains (env : Env) : List (List Nat) :=
  stackChains env.program env.blocks

variable {env : Env} {node : Node}

theorem id_tree : env.tree.id = env.program.id :=
  id_plug

theorem ids_tree : env.tree.ids = env.ids := by
  rw [tree, ids_plug, idsAll_nil, append_nil]
  rfl

theorem chains_tree : env.tree.chains [] = env.chains := by
  rw [tree, chains_plug, chainsAll_nil, append_nil]
  rfl

theorem tree_appended : (env.appended node).tree = plug env.program env.blocks [node] := by
  obtain ⟨_, _, _, _, program, blocks⟩ := env
  cases blocks <;> simp [tree, appended, updateCurrent, plug]

theorem chains_appended (plain : node.blocks = []) : (env.appended node).chains = env.chains := by
  rw [← chains_tree, tree_appended, chains_plug, chainsAll_eq_nil (by simp [plain]), append_nil]
  rfl

theorem tree_close {opening : Opening} {block : Block} {outer : List OpenBlock}
    (eq : env.blocks = ⟨opening, block⟩ :: outer) :
    ({ env with blocks := outer }.appended (opening.close block.node)).tree = env.tree := by
  rw [tree_appended, tree, eq, plug, append_nil]
  rfl

theorem chains_opened {opening : Opening} (plain : blocksAll opening.parts = []) :
    (env.opened opening).chains = env.chains ++ [(env.opened opening).chain] := by
  simp [chains, opened, stackChains, chainsAll_eq_nil plain, chain, scopes, stackChain, stackScopes]

end Env

end Parse

end LineBasic
