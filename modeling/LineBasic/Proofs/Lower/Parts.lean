import LineBasic.Proofs.Lower.Storage

/-!
The code of a block is a part of the code of the statement around it.
-/

namespace LineBasic.Lower

open List

open Node (IsStatement)

variable {target : Target} {symbols table : Array Variable} {strings : Array Literal}
  {visible vars : List Nat} {top id line : Nat} {last : Option Nat} {node child block : Node}
  {nodes : List Node}

/-- The code of a statement without the label of its line. -/
def ownCode (target : Target) (table : Array Variable) (node : Node) : List Instr :=
  (statementCode target table none node).tail

theorem four_dvd_bytesOf (table : Array Variable) (n : Nat) : 4 ∣ bytesOf table n := by
  unfold bytesOf
  cases size : table[n]?.bind Variable.size? with
  | none => exact Nat.dvd_zero 4
  | some bytes =>
    obtain ⟨v, _, bytesEq⟩ := Option.bind_eq_some_iff.mp size
    exact ⟨Shape.count v.dims, (Shape.size?_eq_some bytesEq).1⟩

theorem four_dvd_frameSize (table : Array Variable) (vars : List Nat) :
    4 ∣ frameSize table vars := by
  induction vars with
  | nil => exact Nat.dvd_zero 4
  | cons n vars ih =>
    rw [frameSize_cons]
    exact Nat.dvd_add (four_dvd_bytesOf table n) ih

theorem statementCode_part (mem : node ∈ nodes) (last : Option Nat) :
    ∃ before, statementCode target table before node <:+: statementsCode target table last nodes := by
  induction nodes generalizing last with
  | nil => cases mem
  | cons first rest ih =>
    rw [statementsCode]
    rcases mem_cons.mp mem with rfl | later
    · exact ⟨last, (prefix_append _ _).isInfix⟩
    · obtain ⟨before, part⟩ := ih later first.lastLine
      exact ⟨before, part.trans (suffix_append _ _).isInfix⟩

theorem blockCode_part (h : IsStatement symbols strings visible node)
    (mem : ⟨id, line, .block vars, nodes⟩ ∈ node.children) (last : Option Nat) :
    blockCode target table ⟨id, line, .block vars, nodes⟩ <:+:
      statementCode target table last node := by
  have other {plain : Node} (isPlain : plain.IsPlain) :
      (⟨id, line, .block vars, nodes⟩ : Node) ≠ plain := by
    rintro rfl
    exact isPlain.notBlock vars rfl
  cases h with
  | simple simple => exact absurd rfl (other (simple.isPlain.2.2 _ mem))
  | loop isStart isLimit isStep =>
    simp only [mem_cons, other isStart.isPlain, other isLimit.isPlain, other isStep.isPlain,
      false_or, not_mem_nil, or_false] at mem
    rw [statementCode, mem]
    refine IsInfix.trans ?_ (suffix_append _ _).isInfix
    refine IsInfix.trans ?_ (prefix_append _ _).isInfix
    refine IsInfix.trans ?_ (prefix_append _ _).isInfix
    exact infix_append _ _ _
  | branch isCondition =>
    simp only [mem_cons, other isCondition.isPlain, false_or, not_mem_nil, or_false] at mem
    rw [statementCode, mem]
    refine IsInfix.trans ?_ (suffix_append _ _).isInfix
    exact infix_append _ _ _
  | branchElse isCondition =>
    simp only [mem_cons, other isCondition.isPlain, false_or, not_mem_nil, or_false] at mem
    rw [statementCode]
    refine IsInfix.trans ?_ (suffix_append _ _).isInfix
    rcases mem with taken | otherwise
    · rw [taken]
      simp only [append_assoc]
      exact infix_append' _ _ _
    · rw [otherwise]
      exact infix_append _ _ _

/-- A block inside some code, with its variables under the first `top` bytes or more. -/
structure Nested (target : Target) (symbols table : Array Variable) (strings : Array Literal)
    (top : Nat) (code : List Instr) (block : Node) : Prop where
  isBlock : ∃ vars, block.kind = .block vars
  laid : ∃ reserved, top ≤ reserved ∧ (4 ∣ top → 4 ∣ reserved) ∧
    BlockLaid target table reserved block.vars block.children
  statements : ∃ visible, ∀ inner ∈ block.children, IsStatement symbols strings visible inner
  part : blockCode target table block <:+: code

theorem nested_of_laid (laid : Laid target table top node)
    (h : IsStatement symbols strings visible node) (mem : block ∈ node.blocks)
    (last : Option Nat) :
    Nested target symbols table strings top (statementCode target table last node) block := by
  induction laid generalizing visible last with
  | @node top node _ assigned inside ih =>
    obtain ⟨id, line, vars, nodes, isChild, statements, own | ⟨inner, isInner, below⟩⟩ :=
      h.blocks_cases mem
    · subst own
      exact ⟨⟨vars, rfl⟩, ⟨top, Nat.le_refl _, fun dvd => dvd, assigned _ isChild vars rfl,
        inside _ isChild vars rfl⟩, ⟨_, statements⟩, blockCode_part h isChild last⟩
    · obtain ⟨before, part⟩ := @statementCode_part target table inner nodes isInner none
      have found := ih _ isChild vars rfl inner isInner (statements inner isInner) below before
      obtain ⟨reserved, le, aligned, laid⟩ := found.laid
      refine ⟨found.isBlock, ⟨reserved, by omega, fun dvd => ?_, laid⟩, found.statements, ?_⟩
      · exact aligned (Nat.dvd_add dvd (four_dvd_frameSize table vars))
      · have whole : statementsCode target table none nodes <:+:
            blockCode target table ⟨id, line, .block vars, nodes⟩ := by
          rw [blockCode_block]
          exact infix_append _ _ _
        exact ((found.part.trans part).trans whole).trans (blockCode_part h isChild last)

end LineBasic.Lower
