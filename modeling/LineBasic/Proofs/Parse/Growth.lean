import LineBasic.Proofs.Parse.Yields
import LineBasic.Proofs.Tree.WellFormed

/-!
What a parse that stops at the first semantic fault does before a statement is complete.
-/

namespace LineBasic

open List

open Node (Extends)

/-- A variable as its declaration makes it: it fits in a frame and has no storage yet. -/
structure Variable.IsDeclared (v : Variable) : Prop where
  size : (Shape.size? v.dims).isSome
  positive : ∀ dim ∈ v.dims, 0 < dim
  address : v.address = none

namespace Parse

namespace Env

/-- The variables that names can stand for here. -/
def visible (env : Env) : List Nat :=
  env.scopes.flatMap Block.vars

/-- The state with more variables in the innermost block. -/
def widen (env : Env) (vars : List Nat) : Env :=
  env.updateCurrent fun block => { block with vars := block.vars ++ vars }

/-- The state with one more variable in the innermost block. -/
def declared (env : Env) (name : String) (dims : List Nat) : Env :=
  { env.widen [env.symbols.size] with
    symbols := env.symbols.push { name, dims, scope := env.current.id } }

/-- The state in which a variable has been given a type, unless it had one. -/
def learning (env : Env) (number : Nat) (type : Option ValueType) : Env :=
  { env with symbols := env.symbols.modify number fun v => { v with type := v.type.or type } }

/-- The state with the tables and counters of another. -/
def withTables (env other : Env) : Env :=
  { env with
    size := other.size
    symbols := other.symbols
    strings := other.strings
    log := other.log }

/-- A state in which nothing has happened but that tables have grown. -/
structure Grows (env env' : Env) : Prop where
  size : env.size ≤ env'.size
  count : env.symbols.size ≤ env'.symbols.size
  tables : Extends env.symbols env'.symbols env.strings env'.strings
  declared : (∀ (n : Nat) (v : Variable), env.symbols[n]? = some v → v.IsDeclared) →
    ∀ (n : Nat) (v : Variable), env'.symbols[n]? = some v → v.IsDeclared
  texts : (∀ (i : Nat) (literal : Literal), env.strings[i]? = some literal → literal.IsText i) →
    ∀ (i : Nat) (literal : Literal), env'.strings[i]? = some literal → literal.IsText i
  frame : env' = (env.widen (List.range' env.symbols.size
    (env'.symbols.size - env.symbols.size))).withTables env'
  scopes : ∀ (n : Nat) (v : Variable), env'.symbols[n]? = some v →
    (∃ old, env.symbols[n]? = some old ∧ v.scope = old.scope) ∨
      env.symbols.size ≤ n ∧ v.scope = env.current.id

theorem widen_nil (env : Env) : env.widen [] = env := by
  cases env using Env.byBlocks <;> simp [widen, updateCurrent]

theorem widen_widen (env : Env) (vars others : List Nat) :
    (env.widen vars).widen others = env.widen (vars ++ others) := by
  cases env using Env.byBlocks <;> simp [widen, updateCurrent]

theorem widen_withTables (env other : Env) (vars : List Nat) :
    (env.withTables other).widen vars = (env.widen vars).withTables other := by
  cases env using Env.byBlocks <;> rfl

@[simp] theorem visible_withTables (env other : Env) :
    (env.withTables other).visible = env.visible := rfl

theorem visible_subset_widen (env : Env) (vars : List Nat) :
    env.visible ⊆ (env.widen vars).visible := by
  cases env using Env.byBlocks <;> simp [visible, scopes, widen, updateCurrent]

theorem id_current_widen (env : Env) (vars : List Nat) :
    (env.widen vars).current.id = env.current.id := by
  cases env using Env.byBlocks <;> rfl

theorem mem_visible_widen (env : Env) {vars : List Nat} {n : Nat} (h : n ∈ vars) :
    n ∈ (env.widen vars).visible := by
  cases env using Env.byBlocks <;> simp [visible, scopes, widen, updateCurrent, h]

namespace Grows

variable {env env' env'' : Env}

theorem refl (env : Env) : Grows env env where
  size := Nat.le_refl _
  count := Nat.le_refl _
  tables := .refl
  declared h := h
  texts h := h
  frame := by
    rw [Nat.sub_self, range'_zero, widen_nil]
    rfl
  scopes _ v h := .inl ⟨v, h, rfl⟩

theorem id_current (h : Grows env env') : env'.current.id = env.current.id := by
  rw [h.frame]
  exact env.id_current_widen _

theorem trans (first : Grows env env') (second : Grows env' env'') : Grows env env'' where
  size := Nat.le_trans first.size second.size
  count := Nat.le_trans first.count second.count
  tables := first.tables.trans second.tables
  declared h := second.declared (first.declared h)
  texts h := second.texts (first.texts h)
  frame := by
    have ranges : List.range' env.symbols.size (env''.symbols.size - env.symbols.size) =
        List.range' env.symbols.size (env'.symbols.size - env.symbols.size) ++
          List.range' env'.symbols.size (env''.symbols.size - env'.symbols.size) := by
      have h := @range'_append env.symbols.size (env'.symbols.size - env.symbols.size)
        (env''.symbols.size - env'.symbols.size) 1
      have := first.count
      have := second.count
      rw [show env.symbols.size + 1 * (env'.symbols.size - env.symbols.size) = env'.symbols.size by
        omega, show env'.symbols.size - env.symbols.size + (env''.symbols.size - env'.symbols.size) =
        env''.symbols.size - env.symbols.size by omega] at h
      exact h.symm
    rw [ranges, ← widen_widen]
    have h := second.frame
    rw [first.frame, widen_withTables] at h
    exact h
  scopes n v h := by
    rcases second.scopes n v h with ⟨mid, found, same⟩ | ⟨new, same⟩
    · rcases first.scopes n mid found with ⟨old, found', same'⟩ | ⟨new, same'⟩
      · exact .inl ⟨old, found', same.trans same'⟩
      · exact .inr ⟨new, same.trans same'⟩
    · exact .inr ⟨Nat.le_trans first.count new, same.trans first.id_current⟩

theorem visible (h : Grows env env') : env.visible ⊆ env'.visible := by
  rw [h.frame, visible_withTables]
  exact env.visible_subset_widen _

theorem collect (h : Grows env env') : env'.collect = env.collect := by
  rw [h.frame]
  unfold withTables widen updateCurrent
  split <;> rfl

theorem line (h : Grows env env') : env'.line = env.line := by
  rw [h.frame]
  unfold withTables widen updateCurrent
  split <;> rfl

theorem numbered (env : Env) : Grows env { env with size := env.size + 1 } where
  size := Nat.le_succ _
  count := Nat.le_refl _
  tables := .refl
  declared h := h
  texts h := h
  frame := by
    simp only [Nat.sub_self, range'_zero, widen_nil]
    rfl
  scopes _ v h := .inl ⟨v, h, rfl⟩

theorem recorded (env : Env) (log : Array Event) : Grows env { env with log } where
  size := Nat.le_refl _
  count := Nat.le_refl _
  tables := .refl
  declared h := h
  texts h := h
  frame := by
    simp only [Nat.sub_self, range'_zero, widen_nil]
    rfl
  scopes _ v h := .inl ⟨v, h, rfl⟩

theorem labelled (env : Env) {literal : Literal} (h : literal.IsText env.strings.size) :
    Grows env { env with strings := env.strings.push literal } where
  size := Nat.le_refl _
  count := Nat.le_refl _
  tables := ⟨fun _ v h => ⟨v, h, rfl⟩, fun i other h => by
    have := (Array.getElem?_eq_some_iff.mp h).1
    rwa [Array.getElem?_push_lt this, ← Array.getElem?_eq_getElem]⟩
  declared h := h
  texts sound i other found := by
    simp only [Array.getElem?_push] at found
    split at found
    next eq =>
      cases found
      exact eq ▸ h
    next => exact sound i other found
  frame := by
    simp only [Nat.sub_self, range'_zero, widen_nil]
    rfl
  scopes _ v h := .inl ⟨v, h, rfl⟩

theorem learning (env : Env) (number : Nat) (type : Option ValueType) :
    Grows env (env.learning number type) where
  size := Nat.le_refl _
  count := by simp [Env.learning]
  tables := by
    refine ⟨fun n v h => ?_, fun _ _ h => h⟩
    by_cases eq : number = n
    · exact ⟨{ v with type := v.type.or type }, by simp [Env.learning, Array.getElem?_modify, eq, h], rfl⟩
    · exact ⟨v, by simp [Env.learning, Array.getElem?_modify, eq, h], rfl⟩
  declared sound n v found := by
    simp only [Env.learning, Array.getElem?_modify] at found
    split at found
    next eq =>
      obtain ⟨old, h, rfl⟩ := Option.map_eq_some_iff.mp found
      exact ⟨(sound n old h).size, (sound n old h).positive, (sound n old h).address⟩
    next => exact sound n v found
  texts h := h
  frame := by
    simp only [Env.learning, Array.size_modify, Nat.sub_self, range'_zero, widen_nil]
    rfl
  scopes n v found := by
    simp only [Env.learning, Array.getElem?_modify] at found
    split at found
    next =>
      obtain ⟨old, h, rfl⟩ := Option.map_eq_some_iff.mp found
      exact .inl ⟨old, h, rfl⟩
    next => exact .inl ⟨v, found, rfl⟩

theorem declares (env : Env) (name : String) {dims : List Nat}
    (size : (Shape.size? dims).isSome) (positive : ∀ dim ∈ dims, 0 < dim) :
    Grows env (env.declared name dims) where
  size := by
    unfold Env.declared widen updateCurrent
    split <;> exact Nat.le_refl _
  count := by simp [Env.declared]
  tables := by
    refine ⟨fun n v h => ?_, fun i literal h => ?_⟩
    · have := (Array.getElem?_eq_some_iff.mp h).1
      refine ⟨v, ?_, rfl⟩
      rwa [Env.declared, Array.getElem?_push_lt this, ← Array.getElem?_eq_getElem]
    · unfold Env.declared widen updateCurrent
      split <;> exact h
  declared sound n v found := by
    simp only [Env.declared, Array.getElem?_push] at found
    split at found
    next eq =>
      cases found
      exact ⟨size, positive, rfl⟩
    next => exact sound n v found
  texts sound i literal found := by
    refine sound i literal ?_
    unfold Env.declared widen updateCurrent at found
    split at found <;> exact found
  frame := by
    simp only [Env.declared, Array.size_push, Nat.add_sub_cancel_left, range'_one]
    cases env using Env.byBlocks <;> rfl
  scopes n v found := by
    simp only [Env.declared, Array.getElem?_push] at found
    split at found
    next eq =>
      cases found
      exact .inr ⟨Nat.le_of_eq eq.symm, rfl⟩
    next => exact .inl ⟨v, found, rfl⟩

end Grows

def IsExpression (env : Env) (node : Node) : Prop :=
  node.IsExpression env.symbols env.strings env.visible

theorem IsExpression.grow {env env' : Env} {node : Node} (h : env.IsExpression node)
    (grows : env.Grows env') : env'.IsExpression node :=
  h.mono grows.tables grows.visible

structure Builds (env : Env) (nodes : List Node) (env' : Env) : Prop where
  grows : env.Grows env'
  isExpression : ∀ node ∈ nodes, env'.IsExpression node

namespace Builds

variable {env env₁ env' : Env} {nodes more before after : List Node}

theorem nil (env : Env) : Builds env [] env :=
  ⟨.refl env, by simp⟩

theorem grow (h : Builds env nodes env₁) (grows : env₁.Grows env') : Builds env nodes env' where
  grows := h.grows.trans grows
  isExpression node mem := (h.isExpression node mem).grow grows

theorem append (first : Builds env nodes env₁) (second : Builds env₁ more env') :
    Builds env (nodes ++ more) env' where
  grows := first.grows.trans second.grows
  isExpression := forall_mem_append.mpr
    ⟨(first.grow second.grows).isExpression, second.isExpression⟩

theorem merge {kind : NodeKind} (h : Builds env (before ++ nodes ++ after) env₁)
    (isNode : env₁.IsExpression ⟨env₁.size, env₁.line, kind, nodes⟩) :
    Builds env (before ++ ⟨env₁.size, env₁.line, kind, nodes⟩ :: after)
      { env₁ with size := env₁.size + 1 } where
  grows := h.grows.trans (.numbered env₁)
  isExpression node mem := by
    refine IsExpression.grow ?_ (.numbered env₁)
    rcases mem_append.mp mem with mem | mem
    · exact h.isExpression node (by simp [mem])
    · rcases mem_cons.mp mem with rfl | mem
      · exact isNode
      · exact h.isExpression node (by simp [mem])

end Builds

end Env

end Parse

theorem Parse.Env.resolve?_eq_some {env : Parse.Env} {name : String} {number : Nat}
    (h : env.resolve? name = some number) :
    number ∈ env.visible ∧ ∃ v, env.symbols[number]? = some v := by
  obtain ⟨block, mem, h⟩ := exists_of_findSome?_eq_some h
  refine ⟨mem_flatMap.mpr ⟨block, mem, mem_of_find?_eq_some h⟩, ?_⟩
  have any := find?_some h
  exact Option.isSome_iff_exists.mp (Option.isSome_of_any any)

/-- Every string among the tokens is on one line. -/
def AllQuoted (tokens : List Token) : Prop :=
  ∀ token ∈ tokens, token.kind = .literal .text → IsQuoted token.text

namespace Check

open Parse (Env)

variable {env env₁ env' : Env} {n : Node} {nodes others : List Node}

theorem not_yields_report {d : Diagnostic} {u : Unit} (strict : env.collect = false) :
    ¬ (report d).Yields env u env' := by
  intro h
  replace h := yields_get_bind.mp h
  rw [strict] at h
  cases h

theorem not_yields_reportAt {token : Token} {fault : SemanticFault} {u : Unit}
    (strict : env.collect = false) : ¬ (reportAt token fault).Yields env u env' := by
  intro h
  obtain ⟨_, _, h₁, h⟩ := yields_bind.mp h
  replace h₁ := yields_get_bind.mp h₁
  obtain ⟨rfl, rfl⟩ := yields_pure.mp h₁
  exact not_yields_report strict h

theorem not_yields_reportAt_bind {α : Type} {token : Token} {fault : SemanticFault}
    {next : Unit → Check α} {a : α} (strict : env.collect = false) :
    ¬ (reportAt token fault >>= next).Yields env a env' := by
  intro h
  obtain ⟨_, _, reported, _⟩ := yields_bind.mp h
  exact not_yields_reportAt strict reported

theorem yields_fresh {id : Nat} :
    fresh.Yields env id env' ↔ env.size = id ∧ { env with size := env.size + 1 } = env' :=
  yields_modifyGet

theorem yields_fresh_bind {β : Type} {next : Nat → Check β} {b : β} :
    (fresh >>= next).Yields env b env' ↔
      (next env.size).Yields { env with size := env.size + 1 } b env' := by
  unfold Yields fresh
  rw [exec_bind, exec_modifyGet]

theorem yields_node {kind : NodeKind} :
    (node kind nodes).Yields env n env' ↔
      ⟨env.size, env.line, kind, nodes⟩ = n ∧ { env with size := env.size + 1 } = env' := by
  constructor
  · intro h
    replace h := yields_fresh_bind.mp h
    replace h := yields_get_bind.mp h
    exact yields_pure.mp h
  · rintro ⟨rfl, rfl⟩
    rfl

theorem Yields.literalNode_builds {text : String} {type : ValueType}
    (h : (literalNode text type).Yields env n env')
    (quoted : type = .string → IsQuoted text)
    (value : type = .int → (Text.int32? text.toList).isSome) :
    env.Builds [n] env' ∧ (type = .string → n.IsFormat env'.strings) := by
  unfold Check.literalNode at h
  split at h
  next isText =>
    subst isText
    replace h := yields_get_bind.mp h
    replace h := yields_modify_bind.mp h
    obtain ⟨rfl, rfl⟩ := yields_node.mp h
    let literal : Literal := ⟨text, .string, some (textLabel env.strings.size)⟩
    have isText : literal.IsText env.strings.size := ⟨rfl, rfl, quoted rfl⟩
    have found : (env.strings.push literal)[env.strings.size]? = some literal := by simp
    refine ⟨⟨(Env.Grows.labelled env isText).trans (.numbered _), ?_⟩,
      fun _ => ⟨_, _, _, literal, found, isText, rfl⟩⟩
    exact forall_mem_singleton.mpr (.text found isText)
  next other =>
    obtain ⟨rfl, rfl⟩ := yields_node.mp h
    refine ⟨⟨.numbered _, forall_mem_singleton.mpr ?_⟩, fun h => absurd h other⟩
    cases type with
    | int =>
      obtain ⟨i, hi⟩ := Option.isSome_iff_exists.mp (value rfl)
      exact .integer hi
    | float => exact .decimal
    | string => exact absurd rfl other

theorem Yields.checkIndex {bracket : Token} {u : Unit}
    (h : (checkIndex bracket n).Yields env u env') (strict : env.collect = false) :
    env = env' := by
  replace h := yields_get_bind.mp h
  split at h
  next => exact absurd h (not_yields_reportAt strict)
  next => exact absurd h (not_yields_reportAt strict)
  next => exact (yields_pure.mp h).2

theorem Yields.reference_eq {number : Nat} {name : Token}
    (h : (reference number name nodes).Yields env n env') (strict : env.collect = false) :
    ⟨env.size, env.line, .reference number, nodes⟩ = n ∧ { env with size := env.size + 1 } = env' ∧
      ∀ v, env.symbols[number]? = some v → nodes.length = v.dims.length := by
  replace h := yields_get_bind.mp h
  dsimp only at h
  split at h
  next => exact absurd h (not_yields_reportAt_bind strict)
  next length =>
    obtain ⟨isNode, later⟩ := yields_node.mp h
    refine ⟨isNode, later, fun v found => ?_⟩
    simpa [found] using (Decidable.not_not.mp length).symm

theorem Yields.reference_builds {number : Nat} {name : Token}
    (h : (reference number name nodes).Yields env₁ n env') (strict : env₁.collect = false)
    (mem : number ∈ env₁.visible) (found : ∃ v, env₁.symbols[number]? = some v)
    (builds : env.Builds (nodes ++ others) env₁) : env.Builds (n :: others) env' := by
  obtain ⟨rfl, rfl, length⟩ := h.reference_eq strict
  obtain ⟨v, found⟩ := found
  refine @Env.Builds.merge _ _ _ [] _ _ builds (.reference mem found (length v found) ?_)
  exact fun index inside => builds.isExpression index (mem_append_left _ inside)

theorem yields_declare {name : String} {dims : List Nat} {number : Nat} :
    (declare name dims).Yields env number env' ↔
      env.symbols.size = number ∧ env.declared name dims = env' := by
  have same : ∀ env : Env, (env.widen [env.symbols.size]).symbols = env.symbols ∧
      (env.widen [env.symbols.size]).current.id = env.current.id := by
    rintro ⟨_, _, _, _, _, _ | _⟩ <;> exact ⟨rfl, rfl⟩
  rw [declare, yields_modifyGet]
  show _ = _ ∧ { env.widen [env.symbols.size] with
    symbols := (env.widen [env.symbols.size]).symbols.push
      { name, dims, scope := (env.widen [env.symbols.size]).current.id } } = env' ↔ _
  rw [(same env).1, (same env).2]
  rfl

theorem Yields.writtenVariable_builds {name : Token}
    (h : (writtenVariable name nodes).Yields env₁ n env') (strict : env₁.collect = false)
    (builds : env.Builds (nodes ++ others) env₁) : env.Builds (n :: others) env' := by
  replace h := yields_get_bind.mp h
  split at h
  next number found =>
    obtain ⟨mem, known⟩ := Parse.Env.resolve?_eq_some found
    exact h.reference_builds strict mem known builds
  next =>
    obtain ⟨number, env₂, h₁, h⟩ := yields_bind.mp h
    obtain ⟨rfl, rfl⟩ := yields_declare.mp h₁
    have declares : env₁.Grows (env₁.declared name.text []) :=
      .declares env₁ name.text (by decide) (by simp)
    replace h := yields_get_bind.mp h
    replace h := yields_modify_bind.mp h
    exact h.reference_builds (declares.collect.trans strict)
      (Env.mem_visible_widen env₁ (mem_cons_self ..)) ⟨_, Array.getElem?_push_size⟩
      (builds.grow (declares.trans (.recorded _ _)))

end Check

end LineBasic
