import LineBasic.Proofs.Lower.Variation

/-!
Code generation for two targets, which differs in the names of library functions only.
-/

namespace LineBasic

open List

variable {target target' : Target}

/-- Instructions that are the same up to the names that targets have for a library function. -/
inductive Instr.Alike (target target' : Target) : Instr → Instr → Prop where
  | same (instr : Instr) : Alike target target' instr instr
  | call {function : String} : function = "printf" ∨ function = "scanf" →
      Alike target target' (.call (target.symbol function)) (.call (target'.symbol function))

abbrev CodeAlike (target target' : Target) (code code' : List Instr) : Prop :=
  Forall₂ (Instr.Alike target target') code code'

theorem CodeAlike.refl (code : List Instr) : CodeAlike target target' code code :=
  forall₂_same.mpr fun instr _ => .same instr

theorem CodeAlike.append {code code' rest rest' : List Instr} (h : CodeAlike target target' code code')
    (h' : CodeAlike target target' rest rest') :
    CodeAlike target target' (code ++ rest) (code' ++ rest') :=
  rel_append h h'

def Variation.targets (target target' : Target) : Variation where
  renumber := .refl Nat
  target := target
  target' := target'
  Alike := Instr.Alike target target'
  same _ := .same _
  label h := h.eq (fun _ => rfl) ▸ .same _
  jmp h := h.eq (fun _ => rfl) ▸ .same _
  jcc h := h.eq (fun _ => rfl) ▸ .same _
  call := .call

namespace Lower

open Node (IsSimple IsStatement)

variable {table symbols : Array Variable} {strings : Array Literal} {visible : List Nat} {node : Node}
  {nodes : List Node}

theorem renumber_targets (node : Node) :
    node.renumber (Variation.targets target target').renumber = node :=
  Node.renumber_self (fun _ => rfl) node

theorem alike_of_twins {first second : Lowered Unit}
    (h : Twins (.targets target target') table table first second) :
    CodeAlike target target' first.code second.code :=
  h.elim And.right fun ⟨_, _, stale⟩ => absurd stale not_stale_self

theorem alike_simpleCode (table : Array Variable) (node : Node) :
    CodeAlike target target' (simpleCode target table node) (simpleCode target' table node) := by
  have printed := alike_of_twins (@twins_print (.targets target target') _ _ (.refl table) node)
  have taken := alike_of_twins (@twins_read (.targets target target') _ _ (.refl table) node)
  rw [renumber_targets] at printed taken
  unfold simpleCode
  split
  next => exact .refl _
  next => exact .refl _
  next => exact printed
  next => exact printed
  next => exact taken
  next => exact .refl _

theorem alike_statementsCode (h : ∀ node ∈ nodes, ∀ last, CodeAlike target target'
      (statementCode target table last node) (statementCode target' table last node))
    (last : Option Nat) :
    CodeAlike target target' (statementsCode target table last nodes)
      (statementsCode target' table last nodes) := by
  induction nodes generalizing last with
  | nil =>
    rw [statementsCode, statementsCode]
    exact .nil
  | cons node nodes ih =>
    rw [statementsCode, statementsCode]
    exact (h node (mem_cons_self ..) last).append
      (ih (fun other mem => h other (mem_cons_of_mem _ mem)) _)

theorem alike_blockCode {id line : Nat} {vars : List Nat}
    (h : CodeAlike target target' (statementsCode target table none nodes)
      (statementsCode target' table none nodes)) :
    CodeAlike target target' (blockCode target table ⟨id, line, .block vars, nodes⟩)
      (blockCode target' table ⟨id, line, .block vars, nodes⟩) := by
  rw [blockCode_block, blockCode_block]
  exact ((CodeAlike.refl _).append h).append (.refl _)

theorem alike_statementCode (h : IsStatement symbols strings visible node) (table : Array Variable)
    (last : Option Nat) :
    CodeAlike target target' (statementCode target table last node)
      (statementCode target' table last node) := by
  induction h generalizing last with
  | simple isSimple =>
    rw [statementCode_simple isSimple.isPlain.1, statementCode_simple isSimple.isPlain.1]
    exact (CodeAlike.refl _).append (alike_simpleCode table _)
  | loop _ _ _ _ ih =>
    rw [statementCode, statementCode]
    exact (CodeAlike.refl _).append (((((CodeAlike.refl _).append
      (alike_blockCode (alike_statementsCode ih none))).append (.refl _)).append (.refl _)).append
        (.refl _))
  | branch _ _ ih =>
    rw [statementCode, statementCode]
    exact (CodeAlike.refl _).append (((CodeAlike.refl _).append
      (alike_blockCode (alike_statementsCode ih none))).append (.refl _))
  | branchElse _ _ _ ih ih' =>
    rw [statementCode, statementCode]
    exact (CodeAlike.refl _).append (((((CodeAlike.refl _).append
      (alike_blockCode (alike_statementsCode ih none))).append (.refl _)).append
        (alike_blockCode (alike_statementsCode ih' none))).append (.refl _))

end Lower

theorem Generator.compile_alike (program : Program) (target target' : Target)
    (sourceName : Option String) :
    (({ target := target, sourceName := sourceName } : Generator).compile program).result =
      (({ target := target', sourceName := sourceName } : Generator).compile program).result ∧
    (({ target := target, sourceName := sourceName } : Generator).compile program).symbols =
      (({ target := target', sourceName := sourceName } : Generator).compile program).symbols := by
  have children : program.root.children =
      program.root.children.map (Node.renumber (Variation.targets target target').renumber) :=
    ((map_congr_left fun node _ => Lower.renumber_targets node).trans (map_id _)).symm
  have ends := @Lower.alike_program (.targets target target') program program sourceName rfl children
    (fun one => by cases one; exact CodeAlike.refl _) (fun one => by cases one; exact .same _)
    { symbols := program.symbols } { symbols := program.symbols } ⟨rfl, rfl, .refl _⟩
  obtain ⟨result, onward⟩ := (ends.same fun _ => rfl).resolve_right fun ⟨_, stale, _⟩ =>
    not_stale_self stale
  exact ⟨result.symm, (onward.symbols_eq rfl).symm⟩

end LineBasic
