import LineBasic.Proofs.Token.Quoted
import LineBasic.Proofs.Tree.Layout

/-!
The table of the nodes of an accepted program, numbered without a gap.
-/

namespace LineBasic

open List Node

namespace Program

variable {program : Program}

/-- The table of the nodes of a program: a tree, the numbers of whose nodes have no gaps, in which
every node has the children its kind asks for and every variable is in the table of its scope. -/
structure WellLinked (program : Program) : Prop where
  numbers : program.links.map Prod.fst = List.range program.size
  isTree : Arena.IsTree program.links 0
  laidOut : Arena.LaidOut program.links program.symbols 0
  owned : ∀ (number : Nat) (v : Variable), program.symbols[number]? = some v → ∃ link vars,
    (v.scope, link) ∈ program.links ∧ link.kind.vars? = some vars ∧ vars.count number = 1
  owner : ∀ id link vars, (id, link) ∈ program.links → link.kind.vars? = some vars →
    ∀ number ∈ vars, ∃ v, program.symbols[number]? = some v ∧ v.scope = id

theorem WellFormed.laidOut (h : program.WellFormed) : program.root.LaidOut program.symbols := by
  obtain ⟨vars, isProgram⟩ := h.isProgram
  have statements := h.statements
  obtain ⟨⟨id, line, kind, children⟩, size, symbols, strings⟩ := program
  cases isProgram
  refine .mk (.program ?_) fun node mem => .statement (statements node mem)
  exact forall_role fun node mem => (statements node mem).role

theorem WellFormed.of_links (h : program.WellFormed) : Arena.Of program.links program.root :=
  ⟨h.ids, mergeSort_perm ..⟩

theorem links_sorted : (program.links.map Prod.fst).Pairwise (· ≤ ·) := by
  rw [pairwise_map]
  have sorted := @pairwise_mergeSort _ (fun a b : Nat × Link => decide (a.1 ≤ b.1))
    (fun a b c => by simpa using Nat.le_trans) (fun a b => by simpa using Nat.le_total a.1 b.1)
    (program.root.links none)
  exact sorted.imp of_decide_eq_true

theorem WellFormed.wellLinked (h : program.WellFormed) (top : program.root.id = 0)
    (numbered : Numbered 0 program.size program.root.ids) : program.WellLinked where
  numbers := by
    have perm : (program.links.map Prod.fst).Perm (List.range program.size) := by
      refine h.of_links.ids.trans (numbered.perm.trans ?_)
      rw [Nat.sub_zero, ← range_eq_range']
    refine perm.eq_of_pairwise (fun a b _ _ => Nat.le_antisymm) links_sorted ?_
    exact pairwise_lt_range.imp Nat.le_of_lt
  isTree := top ▸ h.of_links.isTree
  laidOut := by
    obtain ⟨vars, isProgram⟩ := h.isProgram
    exact top ▸ h.of_links.laidOut (by rw [isProgram]; rfl) h.laidOut
  owned number v found := by
    have bound := (Array.getElem?_eq_some_iff.mp found).1
    obtain ⟨block, isBlock, mem⟩ := exists_block_of_owned _
      (h.owned.mem_iff.mpr (mem_range.mpr bound))
    have table := h.tables block isBlock
    obtain ⟨v', found', owner⟩ := table.owner number mem
    cases found.symm.trans found'
    rw [blocks_eq_filter] at isBlock
    obtain ⟨inside, isScope⟩ := mem_filter.mp isBlock
    obtain ⟨parent, listed⟩ := h.of_links.exists_link inside
    obtain ⟨vars, own⟩ := Option.isSome_iff_exists.mp isScope
    have eq : block.vars = vars := by
      rw [Node.vars, own]
      rfl
    have once : block.vars.Nodup := table.sorted.imp Nat.ne_of_lt
    exact ⟨block.link parent, vars, owner ▸ listed, own,
      count_eq_one_of_mem (eq ▸ once) (eq ▸ mem)⟩
  owner id link vars mem own number inside := by
    obtain ⟨node, isNode, rfl, eq⟩ := h.of_links.exists_node mem
    rw [eq] at own
    have own : node.kind.vars? = some vars := own
    have isBlock : node ∈ program.root.blocks := by
      rw [blocks_eq_filter]
      exact mem_filter.mpr ⟨isNode, by rw [own]; rfl⟩
    refine (h.tables node isBlock).owner number ?_
    show number ∈ node.kind.vars?.getD []
    rw [own]
    exact inside

end Program

/-- In the tree of an accepted source every node but the program has one parent, stands among its
children once and nowhere else, and can be reached from the program; every node has the children its
kind asks for, comparisons stand in branches only, and each variable is in one table of variables,
that of the scope it was declared in. -/
theorem wellLinked_of_parseSource {source : String} {collect : Bool} {program : Program}
    (h : (parseSource source collect).result = .ok program) : program.WellLinked := by
  obtain ⟨tokens, -, parsed⟩ := result_parseSource.mp h
  obtain ⟨top, numbered⟩ := numbered_of_parse parsed
  exact (wellFormed_of_parseSource h).wellLinked top numbered

/-- A first value is given, an expression is negated, and a branch gets a second block. -/
theorem wellLinked_of_parseSource_otherwise : ∃ program,
    (parseSource ("10 DIM A[2][2] = \x7b\x7b1, -2\x7d\x7d\n20 FOR I = 0 TO 1\n" ++
      "30 IF -A[I][0] < 3 ^ I THEN\n40 PRINT \"%d\", -(I + 2)\n50 ELSE\n" ++
      "60 READ \"%d\", A[0][I]\n70 END\n80 PRINTLN I\n90 END") true).result = .ok program ∧
      program.size = 45 ∧ program.WellLinked := by
  generalize hs : "10 DIM A[2][2] = \x7b\x7b1, -2\x7d\x7d\n20 FOR I = 0 TO 1\n" ++
    "30 IF -A[I][0] < 3 ^ I THEN\n40 PRINT \"%d\", -(I + 2)\n50 ELSE\n" ++
    "60 READ \"%d\", A[0][I]\n70 END\n80 PRINTLN I\n90 END" = source
  have accepted : ((parseSource source true).result.toOption.map Program.size) = some 45 := by
    subst hs
    decide +kernel
  obtain ⟨program, parsed, size⟩ := exists_ok_of_map accepted
  exact ⟨program, parsed, size, wellLinked_of_parseSource parsed⟩

end LineBasic
