import LineBasic.Proofs.Tree.Nodes
import Mathlib.Logic.Relation

/-!
A tree by numbers: the table of its nodes is a tree again.
-/

namespace LineBasic

open List

abbrev Arena := List (Nat × Link)

/-- A node without its subtrees, below the given parent. -/
def Node.link (parent : Option Nat) (node : Node) : Link :=
  ⟨node.kind, node.line, parent, node.children.map Node.id⟩

namespace Node

variable {root node child up : Node} {nodes : List Node} {parent : Option Nat} {entry : Nat × Link}

theorem links_eq :
    node.links parent = (node.id, node.link parent) :: linksAll (some node.id) node.children := by
  cases node
  rw [links]
  rfl

theorem linksAll_nil : linksAll parent [] = [] := by
  rw [linksAll]

theorem linksAll_cons :
    linksAll parent (node :: nodes) = node.links parent ++ linksAll parent nodes := by
  rw [linksAll]

theorem mem_linksAll : entry ∈ linksAll parent nodes ↔ ∃ node ∈ nodes, entry ∈ node.links parent := by
  induction nodes with
  | nil => simp [linksAll_nil]
  | cons node nodes ih => simp [linksAll_cons, ih]

mutual

theorem map_fst_links (parent : Option Nat) : (node : Node) →
    (node.links parent).map Prod.fst = node.ids
  | ⟨id, line, kind, children⟩ => by
    rw [links_eq, map_cons, map_fst_linksAll (some id) children, ids_mk]

theorem map_fst_linksAll (parent : Option Nat) : (nodes : List Node) →
    (linksAll parent nodes).map Prod.fst = idsAll nodes
  | [] => by rw [linksAll_nil, idsAll_nil, map_nil]
  | node :: nodes => by
    rw [linksAll_cons, map_append, map_fst_links parent node, map_fst_linksAll parent nodes,
      idsAll_cons]

end

mutual

theorem map_id_nodes : (node : Node) → node.nodes.map Node.id = node.ids
  | ⟨id, line, kind, children⟩ => by
    rw [nodes_eq, map_cons, map_id_nodesAll children, ids_mk]

theorem map_id_nodesAll : (nodes : List Node) → (nodesAll nodes).map Node.id = idsAll nodes
  | [] => by simp
  | node :: nodes => by
    rw [nodesAll_cons, map_append, map_id_nodes node, map_id_nodesAll nodes, idsAll_cons]

end

theorem eq_of_mem_nodes {other : Node} (once : root.ids.Nodup) (mem : node ∈ root.nodes)
    (mem' : other ∈ root.nodes) (same : node.id = other.id) : node = other := by
  rw [← map_id_nodes] at once
  exact inj_on_of_nodup_map once mem mem' same

mutual

theorem nodes_sublist : (root : Node) → node ∈ root.nodes → Sublist node.nodes root.nodes
  | ⟨id, line, kind, children⟩, mem => by
    rcases mem_nodes.mp mem with rfl | ⟨inner, isChild, mem⟩
    · exact Sublist.refl _
    · have below : node ∈ nodesAll children := mem_nodesAll.mpr ⟨inner, isChild, mem⟩
      have sub := nodesAll_sublist children below
      rw [@nodes_eq ⟨id, line, kind, children⟩]
      exact sub.cons _

theorem nodesAll_sublist : (nodes : List Node) → node ∈ nodesAll nodes →
    Sublist node.nodes (nodesAll nodes)
  | [], mem => by simp at mem
  | first :: rest, mem => by
    rw [nodesAll_cons] at mem ⊢
    rcases mem_append.mp mem with mem | mem
    · exact (nodes_sublist first mem).trans (sublist_append_left ..)
    · exact (nodesAll_sublist rest mem).trans (sublist_append_right ..)

end

theorem nodup_ids (once : root.ids.Nodup) (mem : node ∈ root.nodes) : node.ids.Nodup := by
  rw [← map_id_nodes] at once ⊢
  exact once.sublist ((nodes_sublist root mem).map Node.id)

theorem map_id_sublist (nodes : List Node) : Sublist (nodes.map Node.id) (idsAll nodes) := by
  induction nodes with
  | nil => simp
  | cons node nodes ih =>
    rw [map_cons, idsAll_cons, ids_eq, cons_append]
    exact (ih.trans (sublist_append_right ..)).cons_cons _

theorem mem_nodes_self : node ∈ node.nodes :=
  mem_nodes.mpr (.inl rfl)

theorem mem_nodes_of_child (mem : up ∈ root.nodes) (isChild : child ∈ up.children) :
    child ∈ root.nodes :=
  (nodes_sublist root mem).subset (mem_nodes.mpr (.inr ⟨child, isChild, mem_nodes_self⟩))

mutual

theorem cases_of_mem_links (parent : Option Nat) : (root : Node) → entry ∈ root.links parent →
    entry = (root.id, root.link parent) ∨
      ∃ up ∈ root.nodes, ∃ child ∈ up.children, entry = (child.id, child.link (some up.id))
  | ⟨id, line, kind, children⟩, mem => by
    rw [links_eq] at mem
    rcases mem_cons.mp mem with eq | mem
    · exact .inl eq
    · rcases cases_of_mem_linksAll (some id) children mem with ⟨child, isChild, eq⟩ | ⟨up, below, h⟩
      · exact .inr ⟨_, mem_nodes_self, child, isChild, eq⟩
      · refine .inr ⟨up, ?_, h⟩
        rw [nodes_eq]
        exact mem_cons_of_mem _ below

theorem cases_of_mem_linksAll (parent : Option Nat) : (nodes : List Node) →
    entry ∈ linksAll parent nodes →
    (∃ node ∈ nodes, entry = (node.id, node.link parent)) ∨
      ∃ up ∈ nodesAll nodes, ∃ child ∈ up.children, entry = (child.id, child.link (some up.id))
  | [], mem => by simp [linksAll_nil] at mem
  | node :: nodes, mem => by
    rw [linksAll_cons] at mem
    rw [nodesAll_cons]
    rcases mem_append.mp mem with mem | mem
    · rcases cases_of_mem_links parent node mem with eq | ⟨up, inside, h⟩
      · exact .inl ⟨node, mem_cons_self .., eq⟩
      · exact .inr ⟨up, mem_append_left _ inside, h⟩
    · rcases cases_of_mem_linksAll parent nodes mem with ⟨other, mem, eq⟩ | ⟨up, inside, h⟩
      · exact .inl ⟨other, mem_cons_of_mem _ mem, eq⟩
      · exact .inr ⟨up, mem_append_right _ inside, h⟩

end

mutual

theorem mem_links_of_child (isChild : child ∈ up.children) (parent : Option Nat) :
    (root : Node) → up ∈ root.nodes → (child.id, child.link (some up.id)) ∈ root.links parent
  | ⟨id, line, kind, children⟩, mem => by
    rw [nodes_eq] at mem
    rw [links_eq]
    refine mem_cons_of_mem _ ?_
    rcases mem_cons.mp mem with rfl | mem
    · refine mem_linksAll.mpr ⟨child, isChild, ?_⟩
      rw [links_eq]
      exact mem_cons_self ..
    · exact mem_linksAll_of_child isChild (some id) children mem

theorem mem_linksAll_of_child (isChild : child ∈ up.children) (parent : Option Nat) :
    (nodes : List Node) → up ∈ nodesAll nodes →
      (child.id, child.link (some up.id)) ∈ linksAll parent nodes
  | [], mem => by simp at mem
  | node :: nodes, mem => by
    rw [nodesAll_cons] at mem
    rw [linksAll_cons]
    rcases mem_append.mp mem with mem | mem
    · exact mem_append_left _ (mem_links_of_child isChild parent node mem)
    · exact mem_append_right _ (mem_linksAll_of_child isChild parent nodes mem)

end

end Node

namespace Arena

open Node

/-- A node is listed among the children of another one. -/
def IsChild (arena : Arena) (parent child : Nat) : Prop :=
  ∃ link, (parent, link) ∈ arena ∧ child ∈ link.children

/-- A table in which every node but the root has one parent, stands once among the children of that
and nowhere else, and is found from the root. -/
structure IsTree (arena : Arena) (root : Nat) : Prop where
  top : ∃ link, (root, link) ∈ arena ∧ link.parent = none
  orphan : ∀ parent, ¬ arena.IsChild parent root
  attached : ∀ id link, (id, link) ∈ arena → id ≠ root → ∃ parent above,
    link.parent = some parent ∧ (parent, above) ∈ arena ∧ above.children.count id = 1 ∧
      ∀ other, arena.IsChild other id → other = parent
  listed : ∀ parent child, arena.IsChild parent child →
    ∃ link, (child, link) ∈ arena ∧ link.parent = some parent
  reachable : ∀ id link, (id, link) ∈ arena → Relation.ReflTransGen arena.IsChild root id
  acyclic : ∀ id, ¬ Relation.TransGen arena.IsChild id id

/-- The table of the nodes of a tree, which are told apart by their numbers. -/
structure Of (arena : Arena) (root : Node) : Prop where
  once : root.ids.Nodup
  entries : arena.Perm (root.links none)

namespace Of

variable {arena : Arena} {root node child up : Node} {id : Nat} {link : Link}

section

variable (of : arena.Of root)

include of

theorem ids : (arena.map Prod.fst).Perm root.ids := by
  rw [← map_fst_links none]
  exact of.entries.map Prod.fst

theorem unique {link' : Link} (mem : (id, link) ∈ arena)
    (mem' : (id, link') ∈ arena) : link = link' := by
  have once : (arena.map Prod.fst).Nodup := of.ids.nodup_iff.mpr of.once
  exact congrArg Prod.snd (inj_on_of_nodup_map once mem mem' rfl)

theorem mem_root : (root.id, root.link none) ∈ arena := by
  rw [of.entries.mem_iff, links_eq]
  exact mem_cons_self ..

theorem mem_child (mem : up ∈ root.nodes) (isChild : child ∈ up.children) :
    (child.id, child.link (some up.id)) ∈ arena :=
  of.entries.mem_iff.mpr (mem_links_of_child isChild none root mem)

theorem cases (mem : (id, link) ∈ arena) :
    id = root.id ∧ link = root.link none ∨ ∃ up ∈ root.nodes, ∃ child ∈ up.children,
      id = child.id ∧ link = child.link (some up.id) := by
  rcases cases_of_mem_links none root (of.entries.mem_iff.mp mem) with
    eq | ⟨up, inside, child, isChild, eq⟩
  · cases eq
    exact .inl ⟨rfl, rfl⟩
  · cases eq
    exact .inr ⟨up, inside, child, isChild, rfl, rfl⟩

theorem exists_node (mem : (id, link) ∈ arena) :
    ∃ node ∈ root.nodes, id = node.id ∧ link = node.link link.parent := by
  rcases of.cases mem with ⟨rfl, rfl⟩ | ⟨up, inside, child, isChild, rfl, rfl⟩
  · exact ⟨root, mem_nodes_self, rfl, rfl⟩
  · exact ⟨child, mem_nodes_of_child inside isChild, rfl, rfl⟩

theorem exists_link (mem : node ∈ root.nodes) :
    ∃ parent, (node.id, node.link parent) ∈ arena := by
  have listed : node.id ∈ arena.map Prod.fst := by
    rw [of.ids.mem_iff, ← map_id_nodes]
    exact mem_map_of_mem mem
  obtain ⟨⟨id, link⟩, mem', rfl⟩ := mem_map.mp listed
  obtain ⟨other, inside, same, eq⟩ := of.exists_node mem'
  cases eq_of_mem_nodes of.once mem inside same
  exact ⟨link.parent, eq ▸ mem'⟩

theorem exists_child {parent : Nat} (h : arena.IsChild parent id) :
    ∃ up ∈ root.nodes, ∃ child ∈ up.children, parent = up.id ∧ id = child.id := by
  obtain ⟨link, mem, listed⟩ := h
  obtain ⟨up, inside, rfl, eq⟩ := of.exists_node mem
  rw [eq] at listed
  obtain ⟨child, isChild, rfl⟩ := mem_map.mp listed
  exact ⟨up, inside, child, isChild, rfl, rfl⟩

theorem isChild (mem : up ∈ root.nodes) (isChild : child ∈ up.children) :
    arena.IsChild up.id child.id := by
  obtain ⟨parent, listed⟩ := of.exists_link mem
  exact ⟨_, listed, mem_map_of_mem isChild⟩

theorem parent_eq {parent : Nat} (mem : up ∈ root.nodes)
    (isChild : child ∈ up.children) (h : arena.IsChild parent child.id) : parent = up.id := by
  obtain ⟨other, mem', child', isChild', rfl, same⟩ := of.exists_child h
  have entry := of.mem_child mem isChild
  rw [same] at entry
  have eq := of.unique entry (of.mem_child mem' isChild')
  exact (Option.some.inj (congrArg Link.parent eq)).symm

theorem not_child_root (parent : Nat) : ¬ arena.IsChild parent root.id := by
  intro h
  obtain ⟨up, mem, child, isChild, -, same⟩ := of.exists_child h
  have entry := of.mem_child mem isChild
  rw [← same] at entry
  cases congrArg Link.parent (of.unique of.mem_root entry)

theorem count_child (mem : up ∈ root.nodes) (isChild : child ∈ up.children) :
    (up.children.map Node.id).count child.id = 1 := by
  have once := nodup_ids of.once mem
  rw [ids_eq] at once
  have once := (nodup_cons.mp once).2.sublist (map_id_sublist _)
  exact count_eq_one_of_mem once (mem_map_of_mem isChild)

end

mutual

theorem reachable_nodes (of : arena.Of root) : (node : Node) → node ∈ root.nodes →
    Relation.ReflTransGen arena.IsChild root.id node.id →
    ∀ inner ∈ node.nodes, Relation.ReflTransGen arena.IsChild root.id inner.id
  | ⟨number, line, kind, children⟩, mem, reached => by
    intro inner inside
    rw [nodes_eq] at inside
    rcases mem_cons.mp inside with rfl | below
    · exact reached
    · refine reachable_nodesAll of children (fun child isChild => ?_) inner below
      exact ⟨mem_nodes_of_child mem isChild, reached.tail (of.isChild mem isChild)⟩

theorem reachable_nodesAll (of : arena.Of root) : (nodes : List Node) →
    (∀ node ∈ nodes, node ∈ root.nodes ∧ Relation.ReflTransGen arena.IsChild root.id node.id) →
    ∀ inner ∈ nodesAll nodes, Relation.ReflTransGen arena.IsChild root.id inner.id
  | [], _ => by simp
  | node :: nodes, h => by
    intro inner inside
    obtain ⟨first, rest⟩ := forall_mem_cons.mp h
    rw [nodesAll_cons] at inside
    rcases mem_append.mp inside with inside | inside
    · exact reachable_nodes of node first.1 first.2 inner inside
    · exact reachable_nodesAll of nodes rest inner inside

end

/-- A child is a smaller tree than its parent, so no way along children comes back. -/
theorem sizeOf_lt (of : arena.Of root) {below above : Nat}
    (h : Relation.TransGen arena.IsChild above below) :
    ∀ node ∈ root.nodes, ∀ inner ∈ root.nodes, node.id = above → inner.id = below →
      sizeOf inner < sizeOf node := by
  have step {above below : Nat} (h : arena.IsChild above below) : ∀ node ∈ root.nodes,
      ∀ inner ∈ root.nodes, node.id = above → inner.id = below → sizeOf inner < sizeOf node := by
    intro node mem inner mem' eq eq'
    obtain ⟨up, inside, child, isChild, rfl, rfl⟩ := of.exists_child h
    cases eq_of_mem_nodes of.once mem inside eq
    cases eq_of_mem_nodes of.once mem' (mem_nodes_of_child inside isChild) eq'
    have small := sizeOf_lt_of_mem isChild
    cases node
    simp only [Node.mk.sizeOf_spec] at small ⊢
    omega
  induction h with
  | single h => exact step h
  | tail _ h ih =>
    intro node mem inner mem' eq eq'
    obtain ⟨up, inside, _, _, rfl, _⟩ := of.exists_child h
    exact Nat.lt_trans (step h up inside inner mem' rfl eq') (ih node mem up inside eq rfl)

theorem isTree (of : arena.Of root) : arena.IsTree root.id where
  top := ⟨_, of.mem_root, rfl⟩
  orphan := of.not_child_root
  attached := by
    intro id link mem other
    rcases of.cases mem with ⟨rfl, rfl⟩ | ⟨up, inside, child, isChild, rfl, rfl⟩
    · exact absurd rfl other
    · obtain ⟨parent, entry⟩ := of.exists_link inside
      exact ⟨up.id, up.link parent, rfl, entry, of.count_child inside isChild,
        fun _ h => of.parent_eq inside isChild h⟩
  listed := by
    intro parent id h
    obtain ⟨up, inside, child, isChild, rfl, rfl⟩ := of.exists_child h
    exact ⟨_, of.mem_child inside isChild, rfl⟩
  reachable := by
    intro id link mem
    obtain ⟨node, inside, rfl, -⟩ := of.exists_node mem
    exact of.reachable_nodes root mem_nodes_self .refl node inside
  acyclic := by
    intro id h
    obtain ⟨other, first, -⟩ := Relation.TransGen.head'_iff.mp h
    obtain ⟨up, inside, _, _, rfl, _⟩ := of.exists_child first
    exact Nat.lt_irrefl _ (of.sizeOf_lt h up inside up inside rfl rfl)

end Of

end Arena

end LineBasic
