import LineBasic.Lower.Statement
import LineBasic.Proofs.Lower.Names

/-!
What expressions and simple statements are lowered to, and what can keep them from it.
-/

namespace LineBasic

open List

/-- The faults that are limits of code generation and no mistakes in the tree. -/
def EmissionFault.IsLimit : EmissionFault → Prop
  | frameTooLarge _ | floatUnsupported | textOperator _ | textComparator _ => True
  | _ => False

def Stored (symbols : Array Variable) (visible : List Nat) : Prop :=
  ∀ n ∈ visible, ∃ v address, symbols[n]? = some v ∧ v.address = some address

namespace Lowered

variable {α β : Type}

def Succeeds (lowered : Lowered α) : Prop :=
  ∃ a, lowered.result = .ok a

theorem result_bind (first : Lowered α) (next : α → Lowered β) :
    (first >>= next).result = first.result.bind fun a => (next a).result := by
  show (bind first next).result = _
  unfold bind
  split <;> rename_i h <;> rw [h] <;> rfl

theorem code_bind {first : Lowered α} {a : α} (h : first.result = .ok a) (next : α → Lowered β) :
    (first >>= next).code = first.code ++ (next a).code := by
  show (bind first next).code = _
  unfold bind
  rw [h]

theorem succeeds_bind {first : Lowered α} {next : α → Lowered β} :
    (first >>= next).Succeeds ↔ ∃ a, first.result = .ok a ∧ (next a).Succeeds := by
  unfold Succeeds
  rw [result_bind]
  cases first.result with
  | error fault => simp [Except.bind]
  | ok a => simp [Except.bind]

end Lowered

namespace Lower

open Lowered (emit fail)
open Machine (labelNames)
open Node (IsExpression IsReference IsFormat IsStart IsComparison IsSimple IsStatement idsAll)

def bytesOf (table : Array Variable) (n : Nat) : Nat :=
  (table[n]?.bind Variable.size?).getD 0

/-- The bytes that the variables of a block take. -/
def frameSize (table : Array Variable) (vars : List Nat) : Nat :=
  (vars.map (bytesOf table)).foldr (· + ·) 0

/-- An instruction on numbers and registers that neither makes room on the stack nor multiplies by
a fixed number. -/
def isWord (instr : Instr) : Bool :=
  instr.mnemonic?.isSome &&
    instr.operands.all (fun
      | .imm _ | .reg _ => true
      | _ => false) &&
    match instr with
    | .sub _ (.reg .esp) | .imul (.imm _) _ => false
    | _ => true

/-- The place of a variable, or of an element of it under the index in `edx`. -/
inductive IsPlace (table : Array Variable) : Operand → Prop
  | scalar {n address : Nat} {v : Variable} : table[n]? = some v → v.address = some address →
      IsPlace table (.mem (-Int32.ofNat address) .ebp)
  | element {n address : Nat} {v : Variable} : table[n]? = some v → v.address = some address →
      IsPlace table (.indexed (-Int32.ofNat address) .ebp .edx wordSize)

/-- The instructions that code is made of, where `scopes` are the variables of its blocks. -/
inductive Piece (table : Array Variable) (strings : Array Literal) (scopes : List (List Nat)) :
    Instr → Prop
  | word {instr : Instr} : isWord instr = true → Piece table strings scopes instr
  | text {i : Nat} {literal : Literal} : strings[i]? = some literal →
      Piece table strings scopes (.push (.addr (textLabel i)))
  | stride {n stride : Nat} {v : Variable} : table[n]? = some v → v.address.isSome →
      stride ∈ Shape.strides v.dims →
      Piece table strings scopes (.imul (.imm (Int32.ofNat stride)) .eax)
  | grow {vars : List Nat} : vars ∈ scopes →
      Piece table strings scopes (.sub (.imm (Int32.ofNat (frameSize table vars))) (.reg .esp))
  | push {place : Operand} : IsPlace table place → Piece table strings scopes (.push place)
  | set {value : Int32} {place : Operand} : IsPlace table place →
      Piece table strings scopes (.mov (.imm value) place)
  | store {place : Operand} : IsPlace table place →
      Piece table strings scopes (.mov (.reg .eax) place)
  | lea {place : Operand} : IsPlace table place → Piece table strings scopes (.lea place .eax)
  | add {place : Operand} : IsPlace table place →
      Piece table strings scopes (.add (.reg .eax) place)
  | cmp {place : Operand} : IsPlace table place →
      Piece table strings scopes (.cmp (.reg .eax) place)
  | label {name : String} : IsName name → Piece table strings scopes (.label name)
  | transfer {instr : Instr} {mnemonic goal : String} :
      instr.transfer? = some (mnemonic, goal) → IsName goal → Piece table strings scopes instr

section Counts

variable {name : String}

def labelCount (name : String) (code : List Instr) : Nat :=
  (labelNames code).count name

@[simp] theorem labelCount_nil : labelCount name [] = 0 := rfl

@[simp] theorem labelCount_append (code rest : List Instr) :
    labelCount name (code ++ rest) = labelCount name code + labelCount name rest := by
  simp [labelCount, labelNames]

/-- How often a name is one of the labels of operations with these numbers. -/
def powerCount (name : String) (ids : List Nat) : Nat :=
  (tagNames powerTags ids).count name

@[simp] theorem powerCount_append (ids others : List Nat) :
    powerCount name (ids ++ others) = powerCount name ids + powerCount name others := by
  simp [powerCount, tagNames]

theorem powerCount_cons (id : Nat) (ids : List Nat) :
    powerCount name (id :: ids) = powerCount name [id] + powerCount name ids :=
  powerCount_append [id] ids

theorem powerCount_ids (id line : Nat) (kind : NodeKind) (children : List Node) :
    powerCount name (Node.ids ⟨id, line, kind, children⟩) =
      powerCount name [id] + powerCount name (idsAll children) := by
  rw [Node.ids_mk, powerCount_cons]

theorem powerCount_idsAll (node : Node) (nodes : List Node) :
    powerCount name (idsAll (node :: nodes)) =
      powerCount name node.ids + powerCount name (idsAll nodes) := by
  rw [Node.idsAll_cons, powerCount_append]

theorem powerCount_nil : powerCount name (idsAll []) = 0 := rfl

theorem powerCount_children (node : Node) :
    powerCount name (idsAll node.children) ≤ powerCount name node.ids := by
  obtain ⟨id, line, kind, children⟩ := node
  rw [powerCount_ids]
  exact Nat.le_add_left ..

theorem powerCount_reverse (nodes : List Node) :
    powerCount name (idsAll nodes.reverse) = powerCount name (idsAll nodes) := by
  induction nodes with
  | nil => rfl
  | cons node nodes ih =>
    rw [reverse_cons, Node.idsAll_append, powerCount_append, ih]
    simp only [powerCount_idsAll, powerCount_nil]
    omega

end Counts

/-- Code made of pieces, with a label at most so many times. -/
structure Composed (table : Array Variable) (strings : Array Literal) (scopes : List (List Nat))
    (bound : String → Nat) (code : List Instr) : Prop where
  pieces : ∀ instr ∈ code, Piece table strings scopes instr
  labels : ∀ name, labelCount name code ≤ bound name

/-- What is known of a lowering: what its code is made of, its result, and that it fails for a limit
only, if the variables it sees have storage. -/
structure Made {α : Type} (table : Array Variable) (strings : Array Literal) (visible : List Nat)
    (bound : String → Nat) (post : α → Prop) (lowered : Lowered α) : Prop where
  code : Composed table strings [] bound lowered.code
  result : ∀ a, lowered.result = .ok a → post a
  limited : Stored table visible → ∀ fault, lowered.result = .error fault → fault.IsLimit

variable {α β : Type} {symbols table : Array Variable} {strings : Array Literal}
  {scopes : List (List Nat)} {visible : List Nat} {bound bound' : String → Nat} {node : Node}
  {nodes : List Node} {code rest : List Instr}

namespace Composed

theorem nil : Composed table strings scopes bound [] :=
  ⟨fun _ mem => (not_mem_nil mem).elim, fun _ => Nat.zero_le _⟩

theorem append (h : Composed table strings scopes bound code)
    (h' : Composed table strings scopes bound' rest) :
    Composed table strings scopes (fun name => bound name + bound' name) (code ++ rest) where
  pieces := forall_mem_append.mpr ⟨h.pieces, h'.pieces⟩
  labels name := by
    rw [labelCount_append]
    exact Nat.add_le_add (h.labels name) (h'.labels name)

theorem cons {instr : Instr} (h : Piece table strings scopes instr) (none : labelNames [instr] = [])
    (h' : Composed table strings scopes bound rest) :
    Composed table strings scopes bound (instr :: rest) where
  pieces := forall_mem_cons.mpr ⟨h, h'.pieces⟩
  labels name := by
    rw [← singleton_append, labelCount_append, labelCount, none]
    simpa using h'.labels name

theorem label {name : String} (h : IsName name) (h' : Composed table strings scopes bound rest) :
    Composed table strings scopes (fun other => [name].count other + bound other)
      (.label name :: rest) where
  pieces := forall_mem_cons.mpr ⟨.label h, h'.pieces⟩
  labels other := by
    rw [← singleton_append, labelCount_append]
    exact Nat.add_le_add_left (h'.labels other) _

theorem words (h : code.all isWord = true) : Composed table strings scopes bound code := by
  induction code with
  | nil => exact nil
  | cons instr code ih =>
    rw [all_cons, Bool.and_eq_true] at h
    refine cons (.word h.1) ?_ (ih h.2)
    cases instr with
    | label => cases h.1
    | _ => rfl

theorem mono (h : Composed table strings scopes bound code) (le : ∀ name, bound name ≤ bound' name) :
    Composed table strings scopes bound' code :=
  ⟨h.pieces, fun name => Nat.le_trans (h.labels name) (le name)⟩

theorem within (h : Composed table strings [] bound code) : Composed table strings scopes bound code where
  pieces instr mem := by
    cases h.pieces instr mem with
    | word isWord => exact .word isWord
    | text found => exact .text found
    | stride found stored inside => exact .stride found stored inside
    | grow inside => exact (not_mem_nil inside).elim
    | push isPlace => exact .push isPlace
    | set isPlace => exact .set isPlace
    | store isPlace => exact .store isPlace
    | lea isPlace => exact .lea isPlace
    | add isPlace => exact .add isPlace
    | cmp isPlace => exact .cmp isPlace
    | label isName => exact .label isName
    | transfer isTransfer isName => exact .transfer isTransfer isName
  labels := h.labels

end Composed

section Made

variable {post : α → Prop} {post' : β → Prop}

theorem Made.mono {lowered : Lowered α} (h : Made table strings visible bound post lowered)
    (le : ∀ name, bound name ≤ bound' name) : Made table strings visible bound' post lowered :=
  ⟨h.code.mono le, h.result, h.limited⟩

theorem made_bind {first : Lowered α} {next : α → Lowered β}
    (h : Made table strings visible bound post first)
    (h' : ∀ a, post a → Made table strings visible bound' post' (next a)) :
    Made table strings visible (fun name => bound name + bound' name) post' (first >>= next) := by
  show Made table strings visible _ post' (Lowered.bind first next)
  unfold Lowered.bind
  split
  next a result =>
    have rest := h' a (h.result a result)
    exact ⟨h.code.append rest.code, rest.result, rest.limited⟩
  next fault result =>
    refine ⟨h.code.mono fun _ => Nat.le_add_right .., by simp, ?_⟩
    rintro stored _ ⟨⟩
    exact h.limited stored fault result

theorem made_then {first : Lowered α} {next : α → Lowered β}
    (h : Made table strings visible bound post first)
    (h' : ∀ a, post a → Made table strings visible (fun _ => 0) post' (next a)) :
    Made table strings visible bound post' (first >>= next) :=
  made_bind h h'

theorem made_after {first : Lowered α} {next : α → Lowered β}
    (h : Made table strings visible (fun _ => 0) post first)
    (h' : ∀ a, post a → Made table strings visible bound post' (next a)) :
    Made table strings visible bound post' (first >>= next) :=
  (made_bind h h').mono fun _ => Nat.le_of_eq (Nat.zero_add _)

theorem made_pure {a : α} (h : post a) : Made table strings visible bound post (pure a) :=
  ⟨.nil, by rintro _ ⟨⟩; exact h, by rintro _ _ ⟨⟩⟩

theorem made_fail {fault : EmissionFault} (h : Stored table visible → fault.IsLimit) :
    Made table strings visible bound post (fail fault) :=
  ⟨.nil, by rintro _ ⟨⟩, by rintro stored _ ⟨⟩; exact h stored⟩

theorem made_emit (h : Composed table strings [] bound code) :
    Made table strings visible bound (fun _ => True) (emit code) :=
  ⟨h, fun _ _ => trivial, by rintro _ _ ⟨⟩⟩

end Made

theorem float_or_text_or (type : Option ValueType) :
    type = some .float ∨ type = some .string ∨ type ≠ some .float ∧ type ≠ some .string := by
  by_cases isFloat : type = some .float
  · exact .inl isFloat
  · by_cases isText : type = some .string
    · exact .inr (.inl isText)
    · exact .inr (.inr ⟨isFloat, isText⟩)

theorem expression_operation {id line : Nat} {operator : Operator} {type : Option ValueType}
    {lhs rhs : Node} (noFloat : type ≠ some .float) (noText : type ≠ some .string) :
    expression table ⟨id, line, .operator operator type, [lhs, rhs]⟩ = (do
      expression table lhs
      expression table rhs
      operation id operator) := by
  rw [expression]
  · exact noFloat
  · exact noText

section Walk

theorem composed_elementOffset {n : Nat} {v : Variable} (found : table[n]? = some v)
    (stored : v.address.isSome) : Composed table strings scopes bound (elementOffset v.dims) := by
  have steps (strides : List Nat) (sub : ∀ stride ∈ strides, stride ∈ Shape.strides v.dims) :
      Composed table strings scopes bound (strides.flatMap fun stride =>
        .pop .eax :: (if stride = 1 then [] else [.imul (.imm (Int32.ofNat stride)) .eax]) ++
          [.add (.reg .eax) (.reg .edx)]) := by
    induction strides with
    | nil => exact .nil
    | cons stride strides ih =>
      obtain ⟨own, others⟩ := forall_mem_cons.mp sub
      have rest := ih others
      rw [flatMap_cons]
      split
      next => exact .cons (.word rfl) rfl (.cons (.word rfl) rfl rest)
      next => exact .cons (.word rfl) rfl (.cons (.stride found stored own) rfl (.cons (.word rfl) rfl rest))
  exact .cons (.word rfl) rfl (steps _ fun stride mem => mem_reverse.mp mem)

theorem found_of_address {n address : Nat} (h : (table[n]?.getD default).address = some address) :
    table[n]? = some (table[n]?.getD default) := by
  cases found : table[n]? with
  | some v => rfl
  | none =>
    rw [found] at h
    cases h

theorem made_storage {n : Nat} {isElement : Bool} {indices : Lowered Unit} (mem : n ∈ visible)
    (h : Made table strings visible bound (fun _ => True) indices) :
    Made table strings visible bound (IsPlace table)
      (storage (table[n]?.getD default) isElement indices) := by
  unfold storage
  split
  next none =>
    refine made_fail fun stored => ?_
    obtain ⟨v, address, found, eq⟩ := stored n mem
    rw [found, Option.getD_some, eq] at none
    cases none
  next address eq =>
    have found := found_of_address eq
    split
    next =>
      exact made_then h fun _ _ =>
        made_then (made_emit (composed_elementOffset found (by rw [eq]; rfl))) fun _ _ =>
          made_pure (.element found eq)
    next => exact made_pure (.scalar found eq)

/-- The labels of a node are those of the powers in it. -/
abbrev MadeFor (table : Array Variable) (strings : Array Literal) (visible : List Nat) (ids : List Nat)
    (post : α → Prop) (lowered : Lowered α) : Prop :=
  Made table strings visible (fun name => powerCount name ids) post lowered

theorem made_expressions (h : ∀ node ∈ nodes,
      MadeFor table strings visible node.ids (fun _ => True) (expression table node)) :
    MadeFor table strings visible (idsAll nodes) (fun _ => True) (expressions table nodes) := by
  induction nodes with
  | nil =>
    rw [expressions]
    exact made_pure trivial
  | cons node nodes ih =>
    rw [expressions]
    exact (made_bind (h node (mem_cons_self ..)) fun _ _ =>
      ih fun other mem => h other (mem_cons_of_mem _ mem)).mono fun _ =>
        Nat.le_of_eq (powerCount_idsAll ..).symm

theorem made_operation {id : Nat} {operator : Operator} (h : operator.isArithmetic) :
    MadeFor table strings visible [id] (fun _ => True) (operation id operator) := by
  cases operator with
  | plus | minus | star | slash => exact made_emit (.words rfl)
  | caret =>
    have isName (after : String) (ha : after.toList.all isNameChar) : IsName (tagged "POW_" id after) :=
      isName_tagged (by decide) ha ⟨'P', _, rfl, by decide⟩
    have loop := isName "_LOOP" (by decide)
    have test := isName "_TEST" (by decide)
    have jump : Piece table strings [] (.jmp (tagged "POW_" id "_TEST")) := .transfer rfl test
    have again : Piece table strings [] (.jcc .greater (tagged "POW_" id "_LOOP")) := .transfer rfl loop
    have composed : Composed table strings [] _ (operation id .caret).code :=
      .cons (.word rfl) rfl (.cons (.word rfl) rfl (.cons (.word rfl) rfl (.cons jump rfl (.label loop
        (.cons (.word rfl) rfl (.cons (.word rfl) rfl (.label test (.cons (.word rfl) rfl (.cons again rfl
          (.cons (.word rfl) rfl (@Composed.nil table strings [] fun _ => 0)))))))))))
    exact made_emit ⟨composed.pieces, fun _ => Nat.le_refl _⟩
  | _ => cases h

theorem made_expression (h : IsExpression symbols strings visible node) :
    MadeFor table strings visible node.ids (fun _ => True) (expression table node) := by
  induction h with
  | integer eq =>
    rw [expression]
    unfold literal integerValue
    simp only [eq, pure_bind]
    exact made_emit (.words rfl)
  | decimal =>
    rw [expression]
    exact made_fail fun _ => trivial
  | text found isText =>
    rw [expression]
    unfold Lower.literal
    rw [isText.type, isText.label]
    exact made_emit (.cons (.text found) rfl .nil)
  | @reference id line number v indices mem _ _ _ ih =>
    rw [expression]
    split
    next => exact made_fail fun _ => trivial
    next =>
      exact (made_then (made_storage mem (made_expressions ih)) fun _ isPlace =>
        made_emit (.cons (.push isPlace) rfl .nil)).mono fun _ => powerCount_children ⟨id, line, _, indices⟩
  | @operation id line operator type lhs rhs arithmetic _ _ ihl ihr =>
    rcases float_or_text_or type with rfl | rfl | ⟨noFloat, noText⟩
    · rw [expression]
      exact made_fail fun _ => trivial
    · rw [expression]
      exact made_fail fun _ => trivial
    · rw [expression_operation noFloat noText]
      refine (made_bind ihl fun _ _ => made_bind ihr fun _ _ => made_operation arithmetic).mono
        fun name => ?_
      simp only [powerCount_ids, powerCount_idsAll, powerCount_nil]
      omega

theorem made_place (h : IsReference symbols strings visible node) :
    MadeFor table strings visible (idsAll node.children) (IsPlace table) (place table node) := by
  obtain ⟨isExpression, number, eq⟩ := h
  cases isExpression with
  | reference mem _ _ isIndex =>
    exact made_storage mem (made_expressions fun index mem => made_expression (isIndex index mem))
  | _ => cases eq

theorem made_immediate? (h : IsExpression symbols strings visible node) :
    Made table strings visible bound (fun _ => True) (immediate? node) := by
  unfold immediate?
  cases h with
  | integer eq =>
    simp only [if_true, integerValue, eq, pure_bind]
    exact made_pure trivial
  | text _ isText =>
    simp only [isText.type]
    exact made_pure trivial
  | _ => exact made_pure trivial

theorem made_assignment {id line : Nat} {target value : Node}
    (isTarget : IsReference symbols strings visible target)
    (isValue : IsExpression symbols strings visible value) :
    MadeFor table strings visible (Node.ids ⟨id, line, .assign, [target, value]⟩) (fun _ => True)
      (assignment table ⟨id, line, .assign, [target, value]⟩) := by
  have own {name : String} := @powerCount_children name target
  simp only [assignment, operands, pure_bind]
  refine made_after (made_immediate? isValue) fun found _ => ?_
  cases found with
  | some =>
    refine (made_then (made_place isTarget) fun _ isPlace =>
      made_emit (.cons (.set isPlace) rfl .nil)).mono fun name => Nat.le_trans own ?_
    simp only [powerCount_ids, powerCount_idsAll]
    omega
  | none =>
    refine (made_bind (made_expression isValue) fun _ _ => made_then (made_place isTarget) fun _ isPlace =>
      made_emit (.cons (.word rfl) rfl (.cons (.store isPlace) rfl .nil))).mono fun name => ?_
    have own := @own name
    simp only [powerCount_ids, powerCount_idsAll]
    omega

theorem made_start (h : IsStart symbols strings visible node) :
    MadeFor table strings visible node.ids (fun _ => True) (assignment table node) := by
  obtain ⟨id, line, counter, value, isCounter, _, isValue, rfl⟩ := h
  exact made_assignment isCounter isValue

theorem made_call {target : Target} {function : String} {format : Node} {arguments : Nat}
    (isFunction : function = "main" ∨ function = "printf" ∨ function = "scanf")
    (h : IsFormat strings format) :
    Made table strings visible bound (fun _ => True) (call target function format arguments) := by
  obtain ⟨id, line, i, ⟨text, type, label⟩, found, ⟨_, rfl, _⟩, rfl⟩ := h
  exact made_emit (.cons (.text found) rfl (.cons (.transfer rfl (isName_symbol target isFunction)) rfl
    (.words rfl)))

theorem made_print {target : Target} {id line : Nat} {kind : NodeKind} {format : Node}
    (isFormat : IsFormat strings format)
    (isArgument : ∀ node ∈ nodes, IsExpression symbols strings visible node) :
    MadeFor table strings visible (Node.ids ⟨id, line, kind, format :: nodes⟩) (fun _ => True)
      (print target table ⟨id, line, kind, format :: nodes⟩) := by
  refine (made_then (made_expressions fun node mem =>
    made_expression (isArgument node (mem_reverse.mp mem))) fun _ _ =>
      made_call (.inr (.inl rfl)) isFormat).mono fun name => ?_
  rw [powerCount_reverse, powerCount_ids, powerCount_idsAll]
  omega

theorem made_pushAddresses (h : ∀ node ∈ nodes, IsReference symbols strings visible node) :
    MadeFor table strings visible (idsAll nodes) (fun _ => True) (nodes.forM (pushAddress table)) := by
  induction nodes with
  | nil => exact made_pure trivial
  | cons node nodes ih =>
    have first : MadeFor table strings visible (idsAll node.children) (fun _ => True)
        (pushAddress table node) := made_then (made_place (h node (mem_cons_self ..)))
      fun _ isPlace => made_emit (.cons (.lea isPlace) rfl (.words rfl))
    refine (made_bind first fun _ _ => ih fun other mem =>
      h other (mem_cons_of_mem _ mem)).mono fun name => ?_
    rw [powerCount_idsAll]
    exact Nat.add_le_add_right (powerCount_children node) _

theorem made_read {target : Target} {id line : Nat} {kind : NodeKind} {format : Node}
    (isFormat : IsFormat strings format)
    (isTarget : ∀ node ∈ nodes, IsReference symbols strings visible node) :
    MadeFor table strings visible (Node.ids ⟨id, line, kind, format :: nodes⟩) (fun _ => True)
      (read target table ⟨id, line, kind, format :: nodes⟩) := by
  refine (made_then (made_pushAddresses fun node mem => isTarget node (mem_reverse.mp mem))
    fun _ _ => made_call (.inr (.inr rfl)) isFormat).mono fun name => ?_
  rw [powerCount_reverse, powerCount_ids, powerCount_idsAll]
  omega

theorem made_decision {operator : Operator} (h : operator.isComparator) :
    Made table strings visible bound (fun _ => True) (decision operator) := by
  cases operator with
  | plus | minus | star | slash | caret => cases h
  | _ => exact made_pure trivial

theorem made_comparison (h : IsComparison symbols strings visible node) {skip : String}
    (isName : IsName skip) :
    MadeFor table strings visible node.ids (fun _ => True) (comparison table node skip) := by
  obtain ⟨id, line, operator, type, lhs, rhs, compares, isLhs, isRhs, rfl⟩ := h
  unfold comparison
  split
  next => exact made_fail fun _ => trivial
  next eq =>
    cases eq
    simp only [operands, pure_bind]
    have jump (fails : Condition) : Composed table strings [] (fun _ => 0)
        [.cmp (.reg .eax) (.reg .edx), .jcc fails skip] :=
      .cons (.word rfl) rfl (.cons (.transfer rfl isName) rfl .nil)
    refine (made_bind (made_expression isLhs) fun _ _ => made_then (made_expression isRhs) fun _ _ =>
      made_then (made_emit (.words rfl)) fun _ _ => made_then (made_decision compares)
        fun decided _ => ?_).mono fun name => ?_
    · obtain ⟨adjusted, fails⟩ := decided
      cases adjusted with
      | true => exact made_then (made_emit (.words rfl)) fun _ _ => made_emit (jump fails)
      | false => exact made_emit (jump fails)
    · simp only [powerCount_ids, powerCount_idsAll, powerCount_nil]
      omega
  next other => exact absurd rfl (other _ _)

theorem made_advance {start step : Node} (isStart : IsStart symbols strings visible start)
    (isStep : IsExpression symbols strings visible step) :
    MadeFor table strings visible step.ids (IsPlace table) (advance table start step) := by
  obtain ⟨id, line, counter, value, isCounter, noIndex, _, rfl⟩ := isStart
  have counterPlace := @made_place symbols table strings visible counter isCounter
  rw [noIndex] at counterPlace
  simp only [advance, operands, pure_bind]
  exact made_after counterPlace fun _ isPlace => made_then (made_expression isStep) fun _ _ =>
    made_then (made_emit (.cons (.word rfl) rfl (.cons (.add isPlace) rfl .nil)))
      fun _ _ => made_pure isPlace

theorem made_test {limit : Node} {counter : Operand} {start : String}
    (isLimit : IsExpression symbols strings visible limit)
    (isCounter : Piece table strings [] (.cmp (.reg .eax) counter)) (isName : IsName start) :
    MadeFor table strings visible limit.ids (fun _ => True) (test table limit counter start) :=
  made_then (made_expression isLimit) fun _ _ =>
    made_emit (.cons (.word rfl) rfl (.cons isCounter rfl (.cons (.transfer rfl isName) rfl .nil)))

theorem limited_test {limit : Node} {counter : Operand} {start : String} {fault : EmissionFault}
    (isLimit : IsExpression symbols strings visible limit) (stored : Stored table visible)
    (failed : (test table limit counter start).result = .error fault) : fault.IsLimit := by
  rw [test, Lowered.result_bind] at failed
  cases result : (expression table limit).result with
  | error other =>
    rw [result] at failed
    cases failed
    exact (made_expression isLimit).limited stored _ result
  | ok =>
    rw [result] at failed
    cases failed

end Walk

end Lower

end LineBasic
