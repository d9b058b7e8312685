import LineBasic.Tree.Forest

/-!
A tree built by hand stays well linked.
-/

namespace LineBasic.Forest

open List

variable {forest next : Forest} {node between parent child id : Nat} {v : Variable}

/-- The node that a node hangs below. -/
def parent? (forest : Forest) (id : Nat) : Option Nat :=
  forest.nodes[id]?.bind Link.parent

def children (forest : Forest) (id : Nat) : List Nat :=
  (forest.nodes[id]?.map Link.children).getD []

/-- The variables that a node lists as its own, if it is a scope. -/
def vars? (forest : Forest) (id : Nat) : Option (List Nat) :=
  forest.nodes[id]?.bind (·.kind.vars?)

/-- A node that hangs below no other. -/
def IsDetached (forest : Forest) (id : Nat) : Prop :=
  id < forest.size ∧ forest.parent? id = none

/-- Each link and each declaration is recorded twice, and both records agree. -/
structure IsLinked (forest : Forest) : Prop where
  children : ∀ parent child, (forest.children parent).count child =
    if forest.parent? child = some parent then 1 else 0
  vars : ∀ scope number, ((forest.vars? scope).getD []).count number =
    if forest.symbols[number]?.map Variable.scope = some scope then 1 else 0

/-- Only links have changed, to the given parents and lists of children. -/
structure Relinks (forest : Forest) (parents : Nat → Option Nat) (lists : Nat → List Nat)
    (next : Forest) : Prop where
  nodes : ∀ id, next.nodes[id]? =
    forest.nodes[id]?.map fun link => Link.mk link.kind link.line (parents id) (lists id)
  outside : ∀ id, forest.size ≤ id → parents id = none ∧ lists id = []
  symbols : next.symbols = forest.symbols
  strings : next.strings = forest.strings

namespace Relinks

variable {parents : Nat → Option Nat} {lists : Nat → List Nat}

section

variable (h : Relinks forest parents lists next)

include h

theorem parent?_eq (id : Nat) :
    next.parent? id = parents id := by
  rw [parent?, h.nodes]
  cases found : forest.nodes[id]? with
  | some link => rfl
  | none => exact (h.outside id (Array.getElem?_eq_none_iff.mp found)).1.symm

theorem children_eq (id : Nat) :
    next.children id = lists id := by
  rw [children, h.nodes]
  cases found : forest.nodes[id]? with
  | some link => rfl
  | none => exact (h.outside id (Array.getElem?_eq_none_iff.mp found)).2.symm

theorem vars?_eq (id : Nat) :
    next.vars? id = forest.vars? id := by
  rw [vars?, h.nodes, Option.bind_map]
  rfl

theorem isLinked (linked : forest.IsLinked) (agree : ∀ parent child, (lists parent).count child =
      if parents child = some parent then 1 else 0) : next.IsLinked where
  children parent child := by
    rw [h.children_eq, h.parent?_eq, agree]
  vars scope number := by
    rw [h.vars?_eq, h.symbols, linked.vars]

end

end Relinks

section Links

theorem relinks_attach (inside : parent < forest.size) (inside' : child < forest.size) :
    Relinks forest (fun id => if child = id then some parent else forest.parent? id)
      (fun id => forest.children id ++ if parent = id then [child] else [])
      (forest.attach parent child) where
  nodes id := by
    simp only [attach, setParent, updateChildren, Array.getElem?_modify, parent?, children]
    cases forest.nodes[id]? <;> by_cases child = id <;> by_cases parent = id <;> simp [*]
  outside id outside := by
    have missing : forest.nodes[id]? = none := Array.getElem?_eq_none_iff.mpr outside
    rw [if_neg (show ¬ child = id by omega), if_neg (show ¬ parent = id by omega), parent?, children,
      missing]
    exact ⟨rfl, rfl⟩
  symbols := rfl
  strings := rfl

theorem relinks_insertParent (inside : node < forest.size) (detached : forest.IsDetached between) :
    Relinks forest
      (fun id => if node = id then some between
        else if between = id then forest.parent? node else forest.parent? id)
      (fun id => (if forest.parent? node = some id then (forest.children id).replace node between
        else forest.children id) ++ if between = id then [node] else [])
      (forest.insertParent node between) := by
  obtain ⟨inside', lone⟩ := detached
  refine ⟨fun id => ?_, fun id outside => ?_, ?_, ?_⟩
  · rw [insertParent]
    split
    next alone =>
      have alone : forest.parent? node = none := alone
      rw [(relinks_attach inside' inside).nodes, alone]
      cases forest.nodes[id]? <;> by_cases node = id <;> by_cases between = id <;> simp_all
    next parent below =>
      have below : forest.parent? node = some parent := below
      simp only [attach, setParent, updateChildren, Array.getElem?_modify, below,
        Option.some.injEq]
      unfold parent? children
      cases forest.nodes[id]? <;> by_cases node = id <;> by_cases between = id <;>
        by_cases parent = id <;> simp [*]
  · have missing : forest.nodes[id]? = none := Array.getElem?_eq_none_iff.mpr outside
    rw [if_neg (show ¬ node = id by omega), if_neg (show ¬ between = id by omega),
      if_neg (show ¬ between = id by omega), parent?, children, missing]
    simp
  all_goals
    rw [insertParent]
    split <;> rfl

/-- A node that is listed by a parent is listed there once. -/
theorem IsLinked.exists_place (linked : forest.IsLinked) (h : forest.parent? node = some parent) :
    ∃ before after, forest.children parent = before ++ node :: after ∧ node ∉ before ∧
      node ∉ after := by
  have once := linked.children parent node
  rw [if_pos h] at once
  have mem : node ∈ forest.children parent := count_pos_iff.mp (by omega)
  obtain ⟨before, after, eq⟩ := append_of_mem mem
  rw [eq, count_append, count_cons_self] at once
  exact ⟨before, after, eq, count_eq_zero.mp (by omega), count_eq_zero.mp (by omega)⟩

theorem IsLinked.attach (linked : forest.IsLinked) (inside : parent < forest.size)
    (detached : forest.IsDetached child) : (forest.attach parent child).IsLinked := by
  refine (relinks_attach inside detached.1).isLinked linked fun up down => ?_
  have before := linked.children up down
  have lone := detached.2
  by_cases child = down <;> by_cases parent = up <;> simp_all [count_append]

theorem IsLinked.insertParent (linked : forest.IsLinked) (inside : node < forest.size)
    (detached : forest.IsDetached between) : (forest.insertParent node between).IsLinked := by
  refine (relinks_insertParent inside detached).isLinked linked fun up down => ?_
  have before := linked.children up down
  have place := linked.children up node
  have lone := detached.2
  by_cases below : forest.parent? node = some up
  · have mem : node ∈ forest.children up := count_pos_iff.mp (by simp [place, below])
    have other : between ≠ node := by
      rintro rfl
      simp [lone] at below
    rw [if_pos below, count_append, count_replace, if_pos (contains_iff_mem.mpr mem)]
    by_cases node = down <;> by_cases between = down <;> by_cases between = up <;> simp_all
  · rw [if_neg below, count_append]
    by_cases node = down <;> by_cases between = down <;> by_cases between = up <;> simp_all

end Links

section Tables

theorem IsLinked.congr (linked : forest.IsLinked) (parents : ∀ id, next.parent? id = forest.parent? id)
    (lists : ∀ id, next.children id = forest.children id)
    (tables : ∀ id, (next.vars? id).getD [] = (forest.vars? id).getD [])
    (symbols : next.symbols = forest.symbols) : next.IsLinked where
  children parent child := by rw [lists, parents, linked.children]
  vars scope number := by rw [tables, symbols, linked.vars]

theorem IsLinked.add {kind : NodeKind} (linked : forest.IsLinked) (fresh : kind.vars?.getD [] = [])
    (line : Nat) : (forest.add kind line).2.IsLinked := by
  have nodes (id : Nat) : (forest.add kind line).2.nodes[id]? =
      if id = forest.size then some ⟨kind, line, none, []⟩ else forest.nodes[id]? :=
    Array.getElem?_push
  have missing : forest.nodes[forest.size]? = none := Array.getElem?_eq_none_iff.mpr (Nat.le_refl _)
  refine linked.congr (fun id => ?_) (fun id => ?_) (fun id => ?_) rfl <;>
    simp only [parent?, Forest.children, vars?, nodes] <;> split <;> simp_all

theorem IsLinked.registerString (linked : forest.IsLinked) (node : Nat) :
    (forest.registerString node).2.IsLinked := by
  have same (id : Nat) : ((forest.registerString node).2.nodes[id]?.map fun link =>
      (link.parent, link.children, link.kind.vars?)) =
        forest.nodes[id]?.map fun link => (link.parent, link.children, link.kind.vars?) := by
    simp only [Forest.registerString, Array.getElem?_modify]
    split
    next =>
      cases forest.nodes[id]? with
      | none => rfl
      | some link =>
        obtain ⟨kind, _, _, _⟩ := link
        cases kind <;> rfl
    next => rfl
  refine linked.congr (fun id => ?_) (fun id => ?_) (fun id => ?_) rfl
  · simpa [parent?, Option.bind_map, Function.comp_def] using congrArg (·.bind (·.1)) (same id)
  · simpa [Forest.children, Function.comp_def] using
      congrArg (fun view => (view.map (·.2.1)).getD []) (same id)
  · simpa [vars?, Option.bind_map, Function.comp_def] using
      congrArg (fun view => (view.bind (·.2.2)).getD []) (same id)

theorem declare_cases (forest : Forest) (v : Variable) :
    (∃ vars next, forest.vars? v.scope = some vars ∧
      forest.declare v = .ok (forest.symbols.size, next) ∧ next.symbols = forest.symbols.push v ∧
      ∀ id, next.parent? id = forest.parent? id ∧ next.children id = forest.children id ∧
        next.vars? id =
          if v.scope = id then some (vars ++ [forest.symbols.size]) else forest.vars? id) ∨
    forest.vars? v.scope = none ∧ ∃ diagnostic, forest.declare v = .error diagnostic := by
  rw [declare, vars?]
  cases found : forest.nodes[v.scope]? with
  | none => exact .inr ⟨rfl, _, rfl⟩
  | some link =>
    have views (vars : List Nat) (kind : NodeKind) (isScope : kind.vars? = some vars) (id : Nat) :
        let next : Forest := { forest with
          nodes := forest.nodes.modify v.scope ({ · with kind })
          symbols := forest.symbols.push v }
        next.parent? id = forest.parent? id ∧ next.children id = forest.children id ∧
          next.vars? id = if v.scope = id then some vars else forest.vars? id := by
      simp only [parent?, children, vars?, Array.getElem?_modify]
      by_cases v.scope = id <;> cases here : forest.nodes[id]? <;> simp_all
    cases kind : link.kind with
    | program vars =>
      exact .inl ⟨vars, _, by simp [kind, NodeKind.vars?], by simp only [kind, Option.map_some]; rfl, rfl, views _ _ rfl⟩
    | block vars =>
      exact .inl ⟨vars, _, by simp [kind, NodeKind.vars?], by simp only [kind, Option.map_some]; rfl, rfl, views _ _ rfl⟩
    | _ => exact .inr ⟨by simp [kind, NodeKind.vars?], _, by simp only [kind, Option.map_some]; rfl⟩

theorem IsLinked.declare {number : Nat} (linked : forest.IsLinked)
    (declared : forest.declare v = .ok (number, next)) : next.IsLinked := by
  rcases forest.declare_cases v with ⟨vars, _, isScope, eq, symbols, views⟩ | ⟨_, _, eq⟩
  · cases eq.symm.trans declared
    refine ⟨fun parent child => ?_, fun scope number => ?_⟩
    · rw [(views parent).2.1, (views child).1, linked.children]
    · have before := linked.vars scope number
      rw [(views scope).2.2, symbols, Array.getElem?_push]
      by_cases last : number = forest.symbols.size
      · by_cases v.scope = scope <;> simp_all [count_append]
      · have once : List.count number [forest.symbols.size] = 0 := by simp [Ne.symm last]
        by_cases v.scope = scope <;> simp_all [count_append]
  · cases eq.symm.trans declared

end Tables

/-- What can be done to a forest. A scope is made without variables. -/
inductive Operation where
  | add (kind : NodeKind) (fresh : kind.vars?.getD [] = []) (line : Nat)
  | attach (parent child : Nat)
  | insertParent (node between : Nat)
  | declare (v : Variable)
  | registerString (node : Nat)

namespace Operation

/-- What is left of a forest after an operation. A variable that is refused leaves it as it was. -/
def perform (forest : Forest) : Operation → Forest
  | add kind _ line => (forest.add kind line).2
  | attach parent child => forest.attach parent child
  | insertParent node between => forest.insertParent node between
  | declare v => match forest.declare v with
    | .ok (_, next) => next
    | .error _ => forest
  | registerString node => (forest.registerString node).2

/-- The nodes of an operation are there, and what gets a parent has none. -/
def IsAllowed (forest : Forest) : Operation → Prop
  | add .. => True
  | attach parent child => parent < forest.size ∧ forest.IsDetached child
  | insertParent node between => node < forest.size ∧ forest.IsDetached between
  | declare v => v.scope < forest.size
  | registerString node => node < forest.size

end Operation

/-- The forests that can be made. -/
inductive IsBuilt : Forest → Prop where
  | start : IsBuilt {}
  | step {forest : Forest} {operation : Operation} (built : IsBuilt forest)
      (allowed : operation.IsAllowed forest) : IsBuilt (operation.perform forest)

theorem IsLinked.perform {operation : Operation} (linked : forest.IsLinked)
    (allowed : operation.IsAllowed forest) : (operation.perform forest).IsLinked := by
  cases operation with
  | add kind fresh line => exact linked.add fresh line
  | attach => exact linked.attach allowed.1 allowed.2
  | insertParent => exact linked.insertParent allowed.1 allowed.2
  | registerString node => exact linked.registerString node
  | declare v =>
    rw [Operation.perform]
    split
    next declared => exact linked.declare declared
    next => exact linked

theorem isLinked_start : ({} : Forest).IsLinked where
  children parent child := by
    cases parent <;> cases child <;> rfl
  vars scope number := by
    cases scope <;> rfl

theorem IsBuilt.isLinked (built : forest.IsBuilt) : forest.IsLinked := by
  induction built with
  | start => exact isLinked_start
  | step _ allowed linked => exact linked.perform allowed

/-- `between` has the place of `node` below its parent, `node` is the last child of `between`, and
nothing else is changed. The three nodes need not be different ones. -/
structure Splits (forest : Forest) (node between : Nat) (next : Forest) : Prop where
  place : ∀ parent, forest.parent? node = some parent → ∃ before after,
    forest.children parent = before ++ node :: after ∧ node ∉ before ∧ node ∉ after ∧
      next.children parent = (before ++ between :: after) ++ if between = parent then [node] else []
  last : forest.parent? node ≠ some between →
    next.children between = forest.children between ++ [node]
  lists : ∀ id, between ≠ id → forest.parent? node ≠ some id → next.children id = forest.children id
  parents : ∀ id, next.parent? id = if node = id then some between
    else if between = id then forest.parent? node else forest.parent? id
  others : ∀ id : Nat, next.nodes[id]?.map Link.kind = forest.nodes[id]?.map Link.kind ∧
    next.nodes[id]?.map Link.line = forest.nodes[id]?.map Link.line
  tables : next.symbols = forest.symbols ∧ next.strings = forest.strings

end LineBasic.Forest
