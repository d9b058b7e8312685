import LineBasic.Proofs.Tree.Arena

/-!
Which scopes are around which, by a walk from parent to parent through the table of nodes.
-/

namespace LineBasic

open List

namespace Node

mutual

/-- For each scope of a subtree its number and those of the scopes around it, innermost first. -/
def chains (outer : List Nat) : Node → List (List Nat)
  | ⟨id, _, kind, children⟩ =>
    if kind.vars?.isSome then (id :: outer) :: chainsAll (id :: outer) children
    else chainsAll outer children

def chainsAll (outer : List Nat) : List Node → List (List Nat)
  | [] => []
  | node :: nodes => chains outer node ++ chainsAll outer nodes

end

variable {root node : Node} {nodes others : List Node} {outer chain : List Nat}

theorem chains_other (h : ¬ node.kind.vars?.isSome) :
    node.chains outer = chainsAll outer node.children := by
  cases node
  rw [Node.chains, if_neg h]

@[simp] theorem chainsAll_nil : chainsAll outer [] = [] := by
  rw [chainsAll]

@[simp] theorem chainsAll_cons :
    chainsAll outer (node :: nodes) = node.chains outer ++ chainsAll outer nodes := by
  rw [chainsAll]

@[simp] theorem chainsAll_append :
    chainsAll outer (nodes ++ others) = chainsAll outer nodes ++ chainsAll outer others := by
  induction nodes with
  | nil => simp
  | cons node nodes ih => simp [ih]

mutual

theorem map_head?_chains (outer : List Nat) : (node : Node) →
    (node.chains outer).map List.head? = node.blocks.map fun block => some block.id
  | ⟨id, line, kind, children⟩ => by
    rw [chains, blocks_mk]
    split
    · rw [map_cons, map_head?_chainsAll (id :: outer) children]
      rfl
    · rw [map_head?_chainsAll outer children]
      rfl

theorem map_head?_chainsAll (outer : List Nat) : (nodes : List Node) →
    (chainsAll outer nodes).map List.head? = (blocksAll nodes).map fun block => some block.id
  | [] => by simp
  | node :: nodes => by
    rw [chainsAll_cons, blocksAll_cons, map_append, map_append,
      map_head?_chains outer node, map_head?_chainsAll outer nodes]

end

theorem chainsAll_eq_nil (h : blocksAll nodes = []) : chainsAll outer nodes = [] := by
  have heads := map_head?_chainsAll outer nodes
  rw [h, map_nil] at heads
  exact map_eq_nil_iff.mp heads

theorem eq_of_head? {other : List Nat} (once : root.ids.Nodup) (mem : chain ∈ root.chains outer)
    (mem' : other ∈ root.chains outer) (same : chain.head? = other.head?) : chain = other := by
  have heads : ((root.chains outer).map List.head?).Nodup := by
    have eq : (root.blocks.map fun block => some block.id) = (root.blocks.map Node.id).map some := by
      rw [map_map]
      rfl
    rw [map_head?_chains, eq]
    exact (once.sublist (ids_blocks_sublist root)).map fun _ _ => Option.some.inj
  exact inj_on_of_nodup_map heads mem mem' same

/-- The number of a scope. -/
def IsScope (root : Node) (number : Nat) : Prop :=
  ∃ block ∈ root.nodes, block.id = number ∧ block.kind.vars?.isSome

theorem isScope_iff {number : Nat} : root.IsScope number ↔ ∃ chain ∈ root.chains [],
    chain.head? = some number := by
  have heads : some number ∈ (root.chains []).map List.head? ↔ root.IsScope number := by
    rw [map_head?_chains, blocks_eq_filter]
    simp only [mem_map, mem_filter, Option.some.injEq, IsScope]
    constructor
    · rintro ⟨block, ⟨mem, isScope⟩, eq⟩
      exact ⟨block, mem, eq, isScope⟩
    · rintro ⟨block, mem, eq, isScope⟩
      exact ⟨block, ⟨mem, isScope⟩, eq⟩
  rw [← heads, mem_map]

end Node

theorem lookup_of_mem {β : Type} {entries : List (Nat × β)} (once : (entries.map Prod.fst).Nodup)
    {key : Nat} {value : β} (mem : (key, value) ∈ entries) : entries.lookup key = some value := by
  obtain ⟨before, after, rfl⟩ := append_of_mem mem
  rw [map_append, nodup_append] at once
  refine lookup_eq_some_iff.mpr ⟨before, after, rfl, fun entry mem => ?_⟩
  exact bne_iff_ne.mpr (Ne.symm (once.2.2 _ (mem_map_of_mem mem) _ (.head _)))

namespace Arena

open Node (chains chainsAll nodesAll mem_nodes_self mem_nodes_of_child eq_of_mem_nodes)

/-- Whether a node is `outer` or below it: the walk from parent to parent stops at `outer`, or behind
the root. It has no answer if it takes more than `fuel` nodes or leads to a node that is not there. -/
def encloses? (arena : Arena) (outer : Nat) : Nat → Nat → Option Bool
  | 0, _ => none
  | fuel + 1, inner =>
    if inner = outer then some true
    else
      (arena.lookup inner).bind fun link =>
        match link.parent with
        | some parent => arena.encloses? outer fuel parent
        | none => some false

/-- Whether a scope is the first block of a branch that has no second one. There is no answer if a
node that is looked at is not there. -/
def isOpenBranch? (arena : Arena) (scope : Nat) : Option Bool :=
  (arena.lookup scope).bind fun link =>
    match link.parent with
    | some construct => (arena.lookup construct).map fun above =>
        above.kind = .branch ∧ above.children.length = 2 ∧ above.children[1]? = some scope
    | none => some false

/-- The walk from a node to the root goes through the nodes of a path. -/
inductive Climbs (arena : Arena) : Nat → List Nat → Prop
  | top {number : Nat} {link : Link} : arena.lookup number = some link → link.parent = none →
      Climbs arena number [number]
  | up {number parent : Nat} {link : Link} {path : List Nat} : arena.lookup number = some link →
      link.parent = some parent → Climbs arena parent path → Climbs arena number (number :: path)

variable {arena : Arena} {root node up child : Node} {inner : Nat} {path : List Nat}

theorem Climbs.encloses? (h : arena.Climbs inner path) (outer : Nat) {fuel : Nat}
    (enough : path.length ≤ fuel) :
    arena.encloses? outer fuel inner = some (decide (outer ∈ path)) := by
  induction h generalizing fuel with
  | @top number link found parent =>
    obtain ⟨fuel, rfl⟩ : ∃ n, fuel = n + 1 := ⟨fuel - 1, by simp at enough; omega⟩
    rw [Arena.encloses?]
    by_cases eq : number = outer
    · simp [eq]
    · simp [eq, found, parent, Ne.symm eq]
  | @up number parent link path found above _ ih =>
    rw [length_cons] at enough
    obtain ⟨fuel, rfl⟩ : ∃ n, fuel = n + 1 := ⟨fuel - 1, by omega⟩
    rw [Arena.encloses?]
    by_cases eq : number = outer
    · simp [eq]
    · simp [eq, found, above, ih (by omega : path.length ≤ fuel), Ne.symm eq]

namespace Of

theorem lookup (of : arena.Of root) {number : Nat} {link : Link} (mem : (number, link) ∈ arena) :
    arena.lookup number = some link :=
  lookup_of_mem (of.ids.nodup_iff.mpr of.once) mem

theorem climbs_child (of : arena.Of root) (mem : up ∈ root.nodes) (isChild : child ∈ up.children)
    (climbs : arena.Climbs up.id path) : arena.Climbs child.id (child.id :: path) :=
  .up (of.lookup (of.mem_child mem isChild)) rfl climbs

mutual

theorem climbs_chains (of : arena.Of root) : (node : Node) → node ∈ root.nodes →
    ∀ path outer, arena.Climbs node.id (node.id :: path) →
    (∀ n, n ∈ outer ↔ n ∈ path ∧ root.IsScope n) → ∀ chain ∈ node.chains outer,
    ∃ inner path', chain.head? = some inner ∧ arena.Climbs inner path' ∧
      ∀ n, n ∈ chain ↔ n ∈ path' ∧ root.IsScope n
  | ⟨number, line, kind, children⟩, mem, path, outer, climbs, meets => by
    intro chain inside
    have below : ∀ child ∈ children, child ∈ root.nodes ∧
        arena.Climbs child.id (child.id :: number :: path) :=
      fun child isChild => ⟨mem_nodes_of_child mem isChild, of.climbs_child mem isChild climbs⟩
    by_cases isScope : kind.vars?.isSome
    · have own : root.IsScope number := ⟨_, mem, rfl, isScope⟩
      have meets' : ∀ n, n ∈ number :: outer ↔ n ∈ number :: path ∧ root.IsScope n := by
        intro n
        rw [mem_cons, mem_cons, meets n]
        constructor
        · rintro (rfl | h)
          · exact ⟨.inl rfl, own⟩
          · exact ⟨.inr h.1, h.2⟩
        · rintro ⟨rfl | h, h'⟩
          · exact .inl rfl
          · exact .inr ⟨h, h'⟩
      rw [Node.chains, if_pos isScope] at inside
      rcases mem_cons.mp inside with rfl | inside
      · exact ⟨number, _, rfl, climbs, meets'⟩
      · exact climbs_chainsAll of children _ _ below meets' chain inside
    · have meets' : ∀ n, n ∈ outer ↔ n ∈ number :: path ∧ root.IsScope n := by
        intro n
        rw [mem_cons, meets n]
        refine ⟨fun h => ⟨.inr h.1, h.2⟩, ?_⟩
        rintro ⟨rfl | h, h'⟩
        · obtain ⟨block, mem', same, isScope'⟩ := h'
          cases eq_of_mem_nodes of.once mem' mem same
          exact absurd isScope' isScope
        · exact ⟨h, h'⟩
      rw [Node.chains, if_neg isScope] at inside
      exact climbs_chainsAll of children _ _ below meets' chain inside

theorem climbs_chainsAll (of : arena.Of root) : (nodes : List Node) → ∀ path outer,
    (∀ node ∈ nodes, node ∈ root.nodes ∧ arena.Climbs node.id (node.id :: path)) →
    (∀ n, n ∈ outer ↔ n ∈ path ∧ root.IsScope n) →
    ∀ chain ∈ chainsAll outer nodes, ∃ inner path', chain.head? = some inner ∧
      arena.Climbs inner path' ∧ ∀ n, n ∈ chain ↔ n ∈ path' ∧ root.IsScope n
  | [], _, _, _, _ => by simp
  | node :: nodes, path, outer, h, meets => by
    intro chain inside
    obtain ⟨⟨mem, climbs⟩, rest⟩ := forall_mem_cons.mp h
    rw [Node.chainsAll_cons] at inside
    rcases mem_append.mp inside with inside | inside
    · exact climbs_chains of node mem path outer climbs meets chain inside
    · exact climbs_chainsAll of nodes path outer rest meets chain inside

end

/-- The walk from a scope ends, and it answers whether another scope is in the chain. -/
theorem encloses?_of_mem_chains (of : arena.Of root) {chain : List Nat} {outer : Nat}
    (mem : chain ∈ root.chains []) (head : chain.head? = some inner) (isScope : root.IsScope outer) :
    ∃ steps, ∀ fuel ≥ steps, arena.encloses? outer fuel inner = some (decide (outer ∈ chain)) := by
  obtain ⟨first, path, head', climbs, meets⟩ := of.climbs_chains root mem_nodes_self [] []
    (.top (of.lookup of.mem_root) rfl) (by simp) chain mem
  cases head.symm.trans head'
  refine ⟨path.length, fun fuel enough => ?_⟩
  rw [climbs.encloses? outer enough]
  simp only [meets outer, isScope, and_true]

end Of

end Arena

end LineBasic
