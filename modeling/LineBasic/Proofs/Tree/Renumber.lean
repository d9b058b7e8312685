import LineBasic.Tree.Node

/-!
Trees with their lines renumbered.
-/

namespace LineBasic

variable {ρ : Nat → Nat}

def NodeKind.renumber (ρ : Nat → Nat) : NodeKind → NodeKind
  | goto target => goto (ρ target)
  | kind => kind

@[simp] theorem NodeKind.type?_renumber (symbols : Array Variable) (kind : NodeKind) :
    (kind.renumber ρ).type? symbols = kind.type? symbols := by
  cases kind <;> rfl

theorem NodeKind.renumber_self (same : ∀ n, ρ n = n) (kind : NodeKind) : kind.renumber ρ = kind := by
  cases kind <;> simp only [renumber, same]

namespace Node

mutual

def renumber (ρ : Nat → Nat) : Node → Node
  | ⟨id, line, kind, children⟩ => ⟨id, ρ line, kind.renumber ρ, renumberAll ρ children⟩

def renumberAll (ρ : Nat → Nat) : List Node → List Node
  | [] => []
  | node :: nodes => renumber ρ node :: renumberAll ρ nodes

end

theorem renumberAll_eq (nodes : List Node) : renumberAll ρ nodes = nodes.map (renumber ρ) := by
  induction nodes with
  | nil => rw [renumberAll, List.map_nil]
  | cons node nodes ih => rw [renumberAll, ih, List.map_cons]

theorem renumber_mk (id line : Nat) (kind : NodeKind) (children : List Node) :
    renumber ρ ⟨id, line, kind, children⟩ =
      ⟨id, ρ line, kind.renumber ρ, children.map (renumber ρ)⟩ := by
  rw [renumber, renumberAll_eq]

mutual

theorem renumber_self (same : ∀ n, ρ n = n) (node : Node) : node.renumber ρ = node := by
  cases node
  rw [renumber, renumberAll_self same, same, NodeKind.renumber_self same]

theorem renumberAll_self (same : ∀ n, ρ n = n) (nodes : List Node) : renumberAll ρ nodes = nodes := by
  cases nodes with
  | nil => rw [renumberAll]
  | cons node nodes => rw [renumberAll, renumber_self same, renumberAll_self same]

end

@[simp] theorem kind_renumber (node : Node) : (node.renumber ρ).kind = node.kind.renumber ρ := by
  cases node
  rw [renumber_mk]

end Node

/-- The program with its lines renumbered. Its root stands on no line. -/
def Program.renumber (ρ : Nat → Nat) (program : Program) : Program :=
  { program with
    root := { program.root with children := program.root.children.map (Node.renumber ρ) } }

end LineBasic
