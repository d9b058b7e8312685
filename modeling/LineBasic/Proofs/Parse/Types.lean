import LineBasic.Proofs.Token.Quoted

/-!
The types of a program that has been read.
-/

namespace LineBasic

open List

namespace Node

variable {types before later : Types} {reads : Bool} {id line : Nat} {kind : NodeKind}
  {nodes others : List Node}

theorem Leads.split (h : Leads before reads (nodes ++ others) later) :
    ∃ types, Leads before reads nodes types ∧ Leads types reads others later := by
  have learned := h.learned
  rw [learnedAll_append] at learned
  refine ⟨learnedAll reads before nodes, ⟨rfl, fun stage mem => ?_⟩, ⟨learned, fun stage mem => ?_⟩⟩
  · exact h.stages stage (stagesAll_append ▸ mem_append_left _ mem)
  · exact h.stages stage (stagesAll_append ▸ mem_append_right _ mem)

theorem Leads.group (h : Leads before false (nodes ++ others) later) (reads : kind.reads = false)
    (last : ∀ types, kind.last others types = types)
    (fits : ∀ types, Stage.Fits ⟨types, ⟨id, line, kind, others⟩⟩) :
    Leads before false (nodes ++ [⟨id, line, kind, others⟩]) later := by
  obtain ⟨types, first, second⟩ := h.split
  exact first.append (.parent (by rw [reads]; exact second) (fits later) (last later))

end Node

namespace Parse

section Group

variable {before later : Types} {nodes : List Node}

theorem Block.leads_node (block : Block)
    (h : Node.Leads before false (nodes ++ block.statements.toList) later) :
    Node.Leads before false (nodes ++ [block.node]) later :=
  h.group rfl (fun _ => rfl) fun _ => .other (by simp) (by simp) (by simp)

theorem Opening.leads_close (opening : Opening) {node : Node}
    (h : Node.Leads before false (nodes ++ (opening.parts ++ [node])) later) :
    Node.Leads before false (nodes ++ [opening.close node]) later := by
  rw [opening.close_eq]
  cases opening with
  | loop | branch | otherwise =>
    exact h.group rfl (fun _ => rfl) fun _ => .other (by simp [Opening.kind]) (by simp [Opening.kind])
      (by simp [Opening.kind])

end Group

/-- The nodes of a stack, in the order in which they have been read. -/
def stackForest (program : Block) : List OpenBlock → List Node
  | [] => program.statements.toList
  | ⟨opening, block⟩ :: outer =>
    stackForest program outer ++ (opening.parts ++ block.statements.toList)

namespace Env

def forest (env : Env) : List Node :=
  stackForest env.program env.blocks

section Forest

variable {env env' : Env} {node : Node}

theorem forest_appended : (env.appended node).forest = env.forest ++ [node] := by
  cases env using Env.byBlocks <;> simp [forest, appended, updateCurrent, stackForest]

theorem forest_attached : (env.attached node).forest = env.forest ++ [node] :=
  forest_appended

theorem forest_opened (opening : Opening) :
    (env.opened opening).forest = env.forest ++ opening.parts := by
  simp [forest, opened, stackForest]

theorem forest_widen (vars : List Nat) : (env.widen vars).forest = env.forest := by
  cases env using Env.byBlocks <;> rfl

theorem forest_declared (name : String) (dims : List Nat) :
    (env.declared name dims).forest = env.forest :=
  forest_widen [env.symbols.size]

theorem Alike.forest (h : env.Alike env') : env'.forest = env.forest := by
  rw [h.frame]
  rfl

theorem Names.forest {name : String} {number : Nat} (h : env.Names name env' number) :
    env'.forest = env.forest := by
  cases h with
  | known _ alike => exact alike.forest
  | new _ alike => rw [alike.forest, forest_declared]

theorem Writes.forest {name : String} {names : List String} {reads : Bool}
    (h : env.Writes name names reads node env') : env'.forest = env.forest := by
  obtain ⟨number, named, _⟩ := h.target
  exact named.forest

theorem Targets.forest {actions : List NameAction} {nodes : List Node}
    (h : env.Targets actions nodes env') : env'.forest = env.forest := by
  induction h with
  | nil => rfl
  | cons writes _ ih => rw [ih, writes.forest]

end Forest

/-- What is known of the tree leads to the types that are known. -/
def Typed (env : Env) : Prop :=
  Node.Leads .none false env.forest env.types

section Typed

variable {env env' : Env} {node : Node}

theorem types_attached : (env.attached node).types = env.types := by
  rw [types, types, symbols_attached]

theorem types_appended : (env.appended node).types = env.types := by
  unfold types appended updateCurrent
  split <;> rfl

theorem Typed.quiet (h : env.Typed) (quiet : env.Quiet env') : env'.Typed := by
  unfold Typed
  rw [quiet.alike.forest, quiet.types]
  exact h

theorem Typed.attach (h : env.Typed) (forest : env'.forest = env.forest)
    (leads : Node.Leads env.types false [node] env'.types) : (env'.attached node).Typed := by
  unfold Typed
  rw [forest_attached, types_attached, forest]
  exact h.append leads

theorem Typed.opened {opening : Opening} {size : Nat} (h : env.Typed)
    (forest : env'.forest = env.forest) (leads : Node.Leads env.types false opening.parts env'.types) :
    ({ env' with size }.markLine.opened opening).Typed := by
  unfold Typed
  rw [forest_opened]
  have same : ({ env' with size } : Env).markLine.forest = env.forest := forest
  rw [same]
  exact h.append leads

theorem Elements.typed {number : Nat} {indices : List (List Nat)}
    (h : Elements number env indices env') (typed : env.Typed) : env'.Typed := by
  induction h with
  | nil => exact typed
  | cons element _ ih => exact ih (typed.attach element.alike.forest element.leads)

theorem Does.typed {actions : List NameAction} (h : env.Does actions env') (typed : env.Typed) :
    env'.Typed := by
  cases h with
  | nothing => exact typed
  | goto target position =>
    have quiet := Quiet.numbered env
    have settled : Node.Settled env.types ⟨env.size, env.line, .goto target, []⟩ :=
      settled_over (by simp) (by simp) (by simp) (by simp) (by simp)
    exact typed.attach quiet.alike.forest settled
  | say said =>
    refine typed.attach said.quiet.alike.forest ?_
    rw [said.quiet.types]
    exact said.settled
  | write writes => exact typed.attach writes.forest writes.leads
  | read quiet targets _ leads =>
    exact typed.attach (targets.forest.trans quiet.alike.forest) leads
  | dim _ quiet elements =>
    refine elements.typed (Typed.quiet ?_ quiet)
    unfold Typed
    rw [forest_declared, types_declared]
    exact typed
  | @loop env₁ env₂ _ _ _ start limit step writes quiet _ isLimit isStep =>
    have settled : Node.Leads env₁.types false [limit, step] env₁.types :=
      .of_settled (by simp [isLimit, isStep])
    refine typed.opened (quiet.alike.forest.trans writes.forest) ?_
    rw [quiet.types]
    exact writes.leads.append settled
  | branch said =>
    refine typed.opened said.quiet.alike.forest ?_
    rw [said.quiet.types]
    exact said.settled
  | @otherwise id line condition consequence outer eq =>
    have forest : env.forest = (stackForest env.program outer ++ [condition]) ++
        consequence.statements.toList := by
      simp [Env.forest, eq, stackForest, Opening.parts]
    have whole : Node.Leads .none false env.forest env.types := typed
    rw [forest] at whole
    unfold Typed
    rw [forest_opened]
    have grouped := consequence.leads_node whole
    rwa [append_assoc] at grouped
  | @close opening block outer eq =>
    have forest : env.forest = (stackForest env.program outer ++ opening.parts) ++
        block.statements.toList := by
      simp [Env.forest, eq, stackForest]
    have whole : Node.Leads .none false env.forest env.types := typed
    rw [forest] at whole
    have grouped := block.leads_node whole
    rw [append_assoc] at grouped
    unfold Typed
    rw [forest_appended, types_appended]
    exact opening.leads_close grouped

end Typed

theorem Runs.typed {env env' : Env} {lines : List (List Token)} (h : env.Runs lines env')
    (typed : env.Typed) : env'.Typed := by
  induction h with
  | nil => exact typed
  | cons _ acts _ ih =>
    cases acts with
    | mk _ _ does quiet => exact ih ((does.typed typed).quiet quiet)

end Env

end Parse

theorem runs_of_parseSource {source : String} {collect : Bool} {program : Program}
    (h : (parseSource source collect).result = .ok program) :
    ∃ tokens lines env, tokenize source = .ok tokens ∧
      Text.pieces Token.isNewline tokens = lines ++ [[]] ∧
      ({ collect := false } : Parse.Env).Runs lines env ∧ env.blocks = [] ∧
      program = env.toProgram := by
  obtain ⟨tokens, scanned, parsed⟩ := result_parseSource.mp h
  obtain ⟨s, env, outcome, _, rfl⟩ := result_parse.mp (parse_strict parsed)
  obtain ⟨_, acts⟩ := Parse.Yields.program_runs outcome
  obtain ⟨lines, env₁, log, pieces, runs, closed, _, rfl⟩ := acts rfl (allQuoted_of_tokenize scanned)
  exact ⟨tokens, lines, env₁, scanned, pieces, runs, closed, rfl⟩

end LineBasic
