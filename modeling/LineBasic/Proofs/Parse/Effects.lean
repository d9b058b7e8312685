import LineBasic.Proofs.Parse.Lines
import LineBasic.Proofs.Parse.Phrases

/-!
What a statement does to the state of a parse.
-/

namespace LineBasic

/-- What scopes need to know of a variable: its name and the scope that owns it. -/
def Variable.outline (v : Variable) : String × Nat :=
  (v.name, v.scope)

/-- An assignment to the element of an array at the given index. -/
def Node.IsElement (node : Node) (number : Nat) (index : List Nat) : Prop :=
  ∃ id line target indices value,
    node = ⟨id, line, .assign, [⟨target, line, .reference number, indices⟩, value]⟩ ∧
      indices.map Node.kind = index.map fun i => .literal { text := toString i, type := .int }

namespace Parse

namespace Env

/-- The names of the variables and the scopes that own them. -/
def outlines (env : Env) : List (String × Nat) :=
  env.symbols.toList.map Variable.outline

/-- States that differ in nothing but types and in what is given out. -/
structure Alike (env env' : Env) : Prop where
  frame : env' = { env with
    size := env'.size, symbols := env'.symbols, strings := env'.strings, log := env'.log }
  outlines : env'.outlines = env.outlines

namespace Alike

variable {env env₁ env' : Env}

theorem trans (first : Alike env env₁) (second : Alike env₁ env') : Alike env env' :=
  ⟨by rw [second.frame, first.frame], second.outlines.trans first.outlines⟩

theorem line (h : Alike env env') : env'.line = env.line := by
  rw [h.frame]

theorem collect (h : Alike env env') : env'.collect = env.collect := by
  rw [h.frame]

theorem learning (env : Env) (number : Nat) (type : Option ValueType) :
    Alike env (env.learning number type) := by
  refine ⟨rfl, ?_⟩
  apply List.ext_getElem?
  intro i
  simp only [Env.outlines, Env.learning, List.getElem?_map, Array.getElem?_toList,
    Array.getElem?_modify]
  split
  · cases env.symbols[i]? <;> rfl
  · rfl

end Alike

theorem Quiet.alike {env env' : Env} (h : env.Quiet env') : env.Alike env' :=
  ⟨by rw [h], by rw [outlines, outlines, h.symbols]⟩

theorem types_learning {env : Env} {number : Nat} {v : Variable} {type : Option ValueType}
    (found : env.symbols[number]? = some v) :
    (env.learning number type).types = env.types.learn number type := by
  funext n
  simp only [types, Types.ofSymbols, learning, Types.learn, Array.getElem?_modify]
  by_cases same : number = n
  · subst same
    simp [found]
  · simp [same, Ne.symm same]

theorem modify_congr {α : Type} {xs : Array α} {i : Nat} {f g : α → α}
    (h : ∀ x, xs[i]? = some x → f x = g x) : xs.modify i f = xs.modify i g := by
  apply Array.ext_getElem?
  intro j
  simp only [Array.getElem?_modify]
  split
  next same =>
    subst same
    cases found : xs[i]? with
    | none => rfl
    | some x => simp [h x found]
  next => rfl

theorem learning_of_unknown {env : Env} {number : Nat} (type : Option ValueType)
    (unknown : env.types number = none) : env.learning number type =
      { env with symbols := env.symbols.modify number ({ · with type }) } := by
  have same : env.symbols.modify number (fun v => { v with type := v.type.or type }) =
      env.symbols.modify number ({ · with type }) := by
    refine modify_congr fun v found => ?_
    have none : v.type = none := by simpa [types, Types.ofSymbols, found] using unknown
    rw [none]
    rfl
  rw [learning, same]

theorem learning_of_known {env : Env} {number : Nat} {known : ValueType} (type : Option ValueType)
    (h : env.types number = some known) : env.learning number type = env := by
  have same : env.symbols.modify number (fun v => { v with type := v.type.or type }) =
      env.symbols.modify number id := by
    refine modify_congr fun v found => ?_
    have some : v.type = some known := by simpa [types, Types.ofSymbols, found] using h
    obtain ⟨_, _, _, _, _⟩ := v
    cases some
    rfl
  have whole : env.symbols.modify number id = env.symbols := by
    apply Array.ext_getElem?
    intro j
    simp [Array.getElem?_modify]
  rw [learning, same, whole]

theorem types_declared (env : Env) (name : String) (dims : List Nat) :
    (env.declared name dims).types = env.types := by
  funext n
  simp only [types, Types.ofSymbols, declared, Array.getElem?_push]
  split
  next same =>
    subst same
    simp
  next => rfl

theorem Quiet.declared {env env' : Env} (h : env.Quiet env') (name : String) (dims : List Nat) :
    (env.declared name dims).Quiet (env'.declared name dims) := by
  rw [h]
  cases env using Env.byBlocks <;> rfl

/-- A name that is written stands for a variable; a new name is declared. The states differ in
nothing else but types and in what is given out. -/
inductive Names (env : Env) (name : String) (env' : Env) : Nat → Prop
  | known {number : Nat} : env.resolve? name = some number → env.Alike env' →
      Names env name env' number
  | new : env.resolve? name = none → (env.declared name []).Alike env' →
      Names env name env' env.symbols.size

theorem Names.after {env env₁ env' : Env} {name : String} {number : Nat}
    (h : env₁.Names name env' number) (quiet : env.Quiet env₁) : env.Names name env' number := by
  cases h with
  | known found alike => exact .known (quiet.resolve? ▸ found) (quiet.alike.trans alike)
  | new absent alike =>
    rw [quiet.symbols]
    exact .new (quiet.resolve? ▸ absent) ((quiet.declared name []).alike.trans alike)

theorem Names.alike {env env₁ env' : Env} {name : String} {number : Nat}
    (h : env.Names name env₁ number) (alike : env₁.Alike env') : env.Names name env' number := by
  cases h with
  | known found same => exact .known found (same.trans alike)
  | new absent same => exact .new absent (same.trans alike)

/-- A variable is written after some names have been read. `node` refers to all of them, and it may
be read into. -/
structure Writes (env : Env) (name : String) (names : List String) (reads : Bool) (node : Node)
    (env' : Env) : Prop where
  target : ∃ number, env.Names name env' number ∧
    some (.refer env.line number) :: env.resolved names = node.mentions.map some
  leads : Node.Leads env.types reads [node] env'.types

/-- Variables are read into, one after another. -/
inductive Targets : Env → List NameAction → List Node → Env → Prop
  | nil (env : Env) : Targets env [] [] env
  | cons {env env₁ env' : Env} {name : String} {names : List String} {node : Node}
      {actions : List NameAction} {nodes : List Node} : env.Writes name names true node env₁ →
      Targets env₁ actions nodes env' →
      Targets env (.write name names :: actions) (node :: nodes) env'

/-- A first value is assigned to an element of an array. -/
structure Element (number : Nat) (index : List Nat) (env : Env) (node : Node) (env' : Env) :
    Prop where
  alike : env.Alike env'
  mentions : node.mentions = [.refer env.line number]
  leads : Node.Leads env.types false [node] env'.types
  isElement : node.IsElement number index
  inside : ∃ v v', env.symbols[number]? = some v ∧ env'.symbols[number]? = some v' ∧
    v'.dims = v.dims ∧ (Shape.offset? v.dims index).isSome

/-- First values are assigned to the elements of an array at these indices, one after another. -/
inductive Elements (number : Nat) : Env → List (List Nat) → Env → Prop
  | nil (env : Env) : Elements number env [] env
  | cons {env env₁ env' : Env} {node : Node} {index : List Nat} {indices : List (List Nat)} :
      env.Element number index node env₁ → Elements number (env₁.attached node) indices env' →
      Elements number env (index :: indices) env'

structure Says (env : Env) (names : List String) (node : Node) (env' : Env) : Prop where
  quiet : env.Quiet env'
  mentions : env.resolved names = node.mentions.map some
  settled : node.Settled env.types

/-- What a statement does with names and types. -/
inductive Does : Env → List NameAction → Env → Prop
  | nothing (env : Env) : Does env [] env
  | goto (env : Env) (target : Nat) (position : Position) :
      Does env [] (({ env with size := env.size + 1 }.attached
        ⟨env.size, env.line, .goto target, []⟩).jumped target position)
  | say {env env₁ : Env} {names : List String} {node : Node} : env.Says names node env₁ →
      Does env (names.map .use) (env₁.attached node)
  | write {env env₁ : Env} {name : String} {names : List String} {node : Node} :
      env.Writes name names false node env₁ →
      Does env [.write name names] (env₁.attached node)
  | read {env env₁ env₂ : Env} {actions : List NameAction} {targets : List Node} {node : Node} :
      env.Quiet env₁ → env₁.Targets actions targets env₂ →
      node.mentions = Node.mentionsAll targets →
      Node.Leads env.types false [node] env₂.types → Does env actions (env₂.attached node)
  | dim {env env₁ env' : Env} {name : String} {dims : List Nat}
      {indices : List (List Nat)} : env.lookup? env.current name = none →
      (env.declared name dims).Quiet env₁ → Elements env.symbols.size env₁ indices env' →
      Does env (.declare name :: List.replicate indices.length (.use name)) env'
  | loop {env env₁ env₂ : Env} {name : String} {names names' : List String}
      {start limit step : Node} : env.Writes name names false start env₁ →
      env₁.Quiet env₂ → env₁.resolved names' = (Node.mentionsAll [limit, step]).map some →
      limit.Settled env₁.types → step.Settled env₁.types →
      Does env (.write name names :: names'.map .use ++ [.enter])
        ({ env₂ with size := env₂.size + 1 }.markLine.opened
          (.loop env₂.size env₂.line start limit step))
  | branch {env env₁ : Env} {names : List String} {condition : Node} :
      env.Says names condition env₁ →
      Does env (names.map .use ++ [.enter])
        ({ env₁ with size := env₁.size + 1 }.markLine.opened
          (.branch env₁.size env₁.line condition))
  | otherwise {env : Env} {id line : Nat} {condition : Node} {consequence : Block}
      {outer : List OpenBlock} : env.blocks = ⟨.branch id line condition, consequence⟩ :: outer →
      Does env [.leave, .enter]
        ({ env with blocks := outer }.opened (.otherwise id line condition consequence.node))
  | close {env : Env} {opening : Opening} {block : Block} {outer : List OpenBlock} :
      env.blocks = ⟨opening, block⟩ :: outer →
      Does env [.leave] ({ env with blocks := outer }.appended (opening.close block.node))

structure Completes (env : Env) (tokens : List Token) (env' : Env) : Prop where
  statement : Grammar.Statement env.constructs tokens env'.constructs
  collect : env'.collect = env.collect
  numbers : env'.numbers = env.numbers
  does : env.collect = false → env.Does (NameAction.ofStatement tokens) env'
  body : env.collect = false → AllQuoted tokens → env.Body env'

/-- A statement has been read behind its first word. -/
abbrev CompletesBehind (word : Token) (s : TokenStream) (env : Env) (s' : TokenStream) (env' : Env) : Prop :=
  ∃ used, s.Takes used s' ∧ env.Completes (word :: used) env'

theorem Same.attached (env : Env) (node : Node) : Same env (env.attached node) :=
  (Same.updateCurrent env _).trans (.markLine _)

end Env

end Parse

namespace Check

open Parse (Env)

variable {env env₁ env' : Env} {n target value : Node} {nodes : List Node} {tokens : List Token}

theorem Yields.writtenVariable_eq {name : Token}
    (h : (Check.writtenVariable name nodes).Yields env n env') (strict : env.collect = false) :
    ∃ number id, env.Names name.text env' number ∧ env'.types = env.types ∧
      (∃ v, env'.symbols[number]? = some v) ∧ n = ⟨id, env.line, .reference number, nodes⟩ := by
  replace h := yields_get_bind.mp h
  split at h
  next number found =>
    obtain ⟨rfl, rfl, _⟩ := h.reference_eq strict
    exact ⟨number, env.size, .known found (Env.Quiet.numbered env).alike, rfl,
      (Parse.Env.resolve?_eq_some found).2, rfl⟩
  next absent =>
    obtain ⟨number, env₁, h₁, h⟩ := yields_bind.mp h
    have collect : env₁.collect = false :=
      ((keeps_declare name.text []).same h₁).collect.trans strict
    obtain ⟨rfl, rfl⟩ := yields_declare.mp h₁
    replace h := yields_get_bind.mp h
    replace h := yields_modify_bind.mp h
    obtain ⟨rfl, rfl, _⟩ := h.reference_eq collect
    have line : (env.declared name.text []).line = env.line := by
      cases env using Env.byBlocks <;> rfl
    have quiet : (env.declared name.text []).Quiet { env.declared name.text [] with
        size := (env.declared name.text []).size + 1
        log := (env.declared name.text []).log.push
          (.declaredIn (env.declared name.text []).line name.text
            (env.declared name.text []).current.id) } := rfl
    exact ⟨_, _, .new absent quiet.alike, env.types_declared name.text [],
      ⟨_, Array.getElem?_push_size⟩, by rw [← line]⟩

theorem Yields.assignment_eq {name : Token} {number : Nat}
    (h : (Check.assignment name target value).Yields env n env') (strict : env.collect = false)
    (isReference : target.kind = .reference number) :
    env' = { env.learning number (value.kind.typeBy? env.types) with size := env.size + 1 } ∧
      n = ⟨env.size, env.line, .assign, [target, value]⟩ ∧
      ∀ type found, target.kind.typeBy? env.types = some type →
        value.kind.typeBy? env.types = some found → type = found := by
  have finish {env₁ : Env} (eq : env.learning number (value.kind.typeBy? env.types) = env₁)
      (h : (Check.node .assign [target, value]).Yields env₁ n env') :
      env' = { env.learning number (value.kind.typeBy? env.types) with size := env.size + 1 } ∧
        n = ⟨env.size, env.line, .assign, [target, value]⟩ := by
    subst eq
    obtain ⟨rfl, rfl⟩ := yields_node.mp h
    exact ⟨rfl, rfl⟩
  have typed : target.kind.typeBy? env.types = env.types number := by
    rw [isReference]
    rfl
  unfold Check.assignment at h
  rw [isReference] at h
  replace h := yields_get_bind.mp h
  rw [env.type?_eq, env.type?_eq] at h
  split at h
  next unknown =>
    replace h := yields_modify_bind.mp h
    obtain ⟨later, shape⟩ := finish (Env.learning_of_unknown _ (typed ▸ unknown)) h
    exact ⟨later, shape, fun type _ known => by rw [unknown] at known; cases known⟩
  next expected found known given =>
    split at h
    next => exact absurd h (not_yields_reportAt_bind strict)
    next same =>
      obtain ⟨later, shape⟩ := finish (Env.learning_of_known _ (typed ▸ known)) h
      refine ⟨later, shape, fun type other h₁ h₂ => ?_⟩
      rw [known] at h₁
      rw [given] at h₂
      cases h₁
      cases h₂
      exact Decidable.not_not.mp same
  next expected known unknown =>
    obtain ⟨later, shape⟩ := finish (Env.learning_of_known _ (typed ▸ known)) h
    exact ⟨later, shape, fun _ _ _ given => by rw [unknown] at given; cases given⟩

end Check

namespace Parse.Env

variable {env env₁ : Env} {target value : Node}

theorem Builds.assign (h : env.Builds [target, value] env₁) (number : Nat)
    (type : Option ValueType) :
    env.Builds [target, value] { env₁.learning number type with size := env₁.size + 1 } :=
  h.grow ((Grows.learning env₁ number type).trans (.numbered _))

theorem Builds.attaches {number : Nat} (h : env.Builds [target, value] env₁)
    (isReference : target.kind = .reference number) (type : Option ValueType) :
    env.Attaches ({ env₁.learning number type with size := env₁.size + 1 }.attached
      ⟨env₁.size, env₁.line, .assign, [target, value]⟩) := by
  have builds := h.assign number type
  exact .one builds.grows (.assign ⟨builds.isExpression target (by simp), number, isReference⟩
    (builds.isExpression value (by simp))) (by simp) rfl

end Parse.Env

end LineBasic
