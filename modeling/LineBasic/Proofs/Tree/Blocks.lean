import LineBasic.Proofs.Tree.Sites
import Mathlib.Data.List.Nodup

/-!
The scopes of a tree, which own its variables.
-/

namespace LineBasic.Node

open List

variable {symbols : Array Variable} {strings : Array Literal} {visible vars : List Nat} {id line : Nat}
  {node child block : Node} {nodes : List Node}

mutual

theorem exists_block_of_owned {n : Nat} : (node : Node) → n ∈ node.owned →
    ∃ block ∈ node.blocks, n ∈ block.vars
  | ⟨id, line, kind, children⟩, mem => by
    rw [owned_mk] at mem
    rw [blocks_mk]
    rcases mem_append.mp mem with own | below
    · cases vars : kind.vars? with
      | none =>
        rw [vars] at own
        cases own
      | some => exact ⟨⟨id, line, kind, children⟩, by simp, own⟩
    · obtain ⟨block, inside, h⟩ := exists_block_of_ownedAll children below
      exact ⟨block, mem_append_right _ inside, h⟩

theorem exists_block_of_ownedAll {n : Nat} : (nodes : List Node) → n ∈ ownedAll nodes →
    ∃ block ∈ blocksAll nodes, n ∈ block.vars
  | [], mem => by simp at mem
  | node :: nodes, mem => by
    rw [ownedAll_cons] at mem
    rw [blocksAll_cons]
    rcases mem_append.mp mem with first | later
    · obtain ⟨block, inside, h⟩ := exists_block_of_owned node first
      exact ⟨block, mem_append_left _ inside, h⟩
    · obtain ⟨block, inside, h⟩ := exists_block_of_ownedAll nodes later
      exact ⟨block, mem_append_right _ inside, h⟩

end

mutual

theorem blocks_trans {inner : Node} : (node : Node) → block ∈ node.blocks → inner ∈ block.blocks →
    inner ∈ node.blocks
  | ⟨id, line, kind, children⟩, mem, h => by
    have mem' := mem
    rw [blocks_mk] at mem'
    rcases mem_append.mp mem' with own | below
    · split at own
      · rw [mem_singleton.mp own] at h
        exact h
      · cases own
    · rw [blocks_mk]
      exact mem_append_right _ (blocksAll_trans children below h)

theorem blocksAll_trans {inner : Node} : (nodes : List Node) → block ∈ blocksAll nodes →
    inner ∈ block.blocks → inner ∈ blocksAll nodes
  | [], mem, _ => by simp at mem
  | node :: nodes, mem, h => by
    rw [blocksAll_cons] at mem ⊢
    rcases mem_append.mp mem with first | later
    · exact mem_append_left _ (blocks_trans node first h)
    · exact mem_append_right _ (blocksAll_trans nodes later h)

end

mutual

theorem ids_blocks_sublist : (node : Node) → Sublist (node.blocks.map Node.id) node.ids
  | ⟨id, line, kind, children⟩ => by
    rw [blocks_mk, ids_mk, map_append]
    have below := ids_blocksAll_sublist children
    split
    · exact below.cons_cons id
    · exact below.cons id

theorem ids_blocksAll_sublist : (nodes : List Node) →
    Sublist ((blocksAll nodes).map Node.id) (idsAll nodes)
  | [] => by simp
  | node :: nodes => by
    rw [blocksAll_cons, map_append, idsAll]
    exact (ids_blocks_sublist node).append (ids_blocksAll_sublist nodes)

end

theorem eq_of_id_eq {other : Node} (nodup : node.ids.Nodup) (mem : block ∈ node.blocks)
    (mem' : other ∈ node.blocks) (h : block.id = other.id) : block = other :=
  inj_on_of_nodup_map (nodup.sublist (ids_blocks_sublist node)) mem mem' h

theorem self_mem_blocks (h : node.kind.vars?.isSome) : node ∈ node.blocks := by
  cases node
  rw [blocks_mk, if_pos h]
  exact mem_append_left _ (mem_singleton_self _)

theorem mem_blocks (mem : block ∈ node.blocks) :
    block = node ∨ ∃ inner ∈ node.children, block ∈ inner.blocks := by
  obtain ⟨id, line, kind, children⟩ := node
  rw [blocks_mk] at mem
  rcases mem_append.mp mem with own | below
  · split at own
    · exact .inl (mem_singleton.mp own)
    · cases own
  · exact .inr (mem_blocksAll.mp below)

theorem IsStatement.blocks_cases (h : IsStatement symbols strings visible node)
    (mem : block ∈ node.blocks) :
    ∃ id line vars nodes, ⟨id, line, .block vars, nodes⟩ ∈ node.children ∧
      (∀ inner ∈ nodes, IsStatement symbols strings (vars ++ visible) inner) ∧
      (block = ⟨id, line, .block vars, nodes⟩ ∨ ∃ inner ∈ nodes, block ∈ inner.blocks) := by
  cases h with
  | simple simple =>
    rw [simple.blocks_eq] at mem
    cases mem
  | loop isStart isLimit isStep isBody =>
    rw [blocks_mk, blocksAll_cons, blocksAll_cons, blocksAll_cons, blocksAll_cons,
      isStart.isPlain.blocks, isLimit.isPlain.blocks, isStep.isPlain.blocks, blocksAll_nil,
      append_nil] at mem
    exact ⟨_, _, _, _, by simp, isBody, mem_blocks mem⟩
  | branch isCondition isConsequence =>
    rw [blocks_mk, blocksAll_cons, blocksAll_cons, isCondition.isPlain.blocks, blocksAll_nil,
      append_nil] at mem
    exact ⟨_, _, _, _, by simp, isConsequence, mem_blocks mem⟩
  | branchElse isCondition isConsequence isAlternative =>
    rw [blocks_mk, blocksAll_cons, blocksAll_cons, blocksAll_cons, isCondition.isPlain.blocks,
      blocksAll_nil, append_nil] at mem
    rcases mem_append.mp mem with first | second
    · cases first
    · rcases mem_append.mp second with first | second
      · cases first
      · rcases mem_append.mp second with taken | other
        · exact ⟨_, _, _, _, by simp, isConsequence, mem_blocks taken⟩
        · exact ⟨_, _, _, _, by simp, isAlternative, mem_blocks other⟩

theorem IsStatement.block_statements (h : IsStatement symbols strings visible node)
    (mem : ⟨id, line, .block vars, nodes⟩ ∈ node.children) :
    ∀ inner ∈ nodes, IsStatement symbols strings (vars ++ visible) inner := by
  have other {plain : Node} (isPlain : plain.IsPlain) :
      (⟨id, line, .block vars, nodes⟩ : Node) ≠ plain := by
    rintro rfl
    exact isPlain.notBlock vars rfl
  cases h with
  | simple simple => exact absurd rfl (other (simple.isPlain.2.2 _ mem))
  | loop isStart isLimit isStep isBody =>
    simp only [mem_cons, other isStart.isPlain, other isLimit.isPlain, other isStep.isPlain,
      false_or, not_mem_nil, or_false] at mem
    cases mem
    exact isBody
  | branch isCondition isConsequence =>
    simp only [mem_cons, other isCondition.isPlain, false_or, not_mem_nil, or_false] at mem
    cases mem
    exact isConsequence
  | branchElse isCondition isConsequence isAlternative =>
    simp only [mem_cons, other isCondition.isPlain, false_or, not_mem_nil, or_false] at mem
    rcases mem with taken | otherwise
    · cases taken
      exact isConsequence
    · cases otherwise
      exact isAlternative

end LineBasic.Node
