import LineBasic.Text.Numeral
import LineBasic.Tree.Node

/-!
Trees that make sense.
-/

namespace LineBasic

def textLabel (i : Nat) : String :=
  s!"LC{i}"

/-- A text between quotes, on one line. -/
def IsQuoted (text : String) : Prop :=
  ∃ body, text.toList = '"' :: (body ++ ['"']) ∧ '\n' ∉ body

/-- A string literal under its number, which is in its label. -/
structure Literal.IsText (literal : Literal) (i : Nat) : Prop where
  type : literal.type = .string
  label : literal.label = some (textLabel i)
  quoted : IsQuoted literal.text

namespace Node

mutual

/-- The numbers of a node and of the nodes below it. -/
def ids : Node → List Nat
  | ⟨id, _, _, children⟩ => id :: idsAll children

def idsAll : List Node → List Nat
  | [] => []
  | node :: nodes => ids node ++ idsAll nodes

end

theorem ids_mk (id line : Nat) (kind : NodeKind) (children : List Node) :
    ids ⟨id, line, kind, children⟩ = id :: idsAll children := by
  rw [ids]

@[simp] theorem idsAll_nil : idsAll [] = [] := by
  rw [idsAll]

@[simp] theorem idsAll_cons (node : Node) (nodes : List Node) :
    idsAll (node :: nodes) = node.ids ++ idsAll nodes := by
  rw [idsAll]

@[simp] theorem idsAll_append (nodes others : List Node) :
    idsAll (nodes ++ others) = idsAll nodes ++ idsAll others := by
  induction nodes with
  | nil => simp
  | cons node nodes ih => simp [ih]

/-- An expression over the variables in `visible`. -/
inductive IsExpression (symbols : Array Variable) (strings : Array Literal) (visible : List Nat) :
    Node → Prop
  | integer {id line : Nat} {text : String} {value : Int32} :
      Text.int32? text.toList = some value →
      IsExpression symbols strings visible ⟨id, line, .literal ⟨text, .int, none⟩, []⟩
  | decimal {id line : Nat} {text : String} :
      IsExpression symbols strings visible ⟨id, line, .literal ⟨text, .float, none⟩, []⟩
  | text {id line i : Nat} {literal : Literal} :
      strings[i]? = some literal → literal.IsText i →
      IsExpression symbols strings visible ⟨id, line, .literal literal, []⟩
  | reference {id line number : Nat} {v : Variable} {indices : List Node} :
      number ∈ visible → symbols[number]? = some v → indices.length = v.dims.length →
      (∀ index ∈ indices, IsExpression symbols strings visible index) →
      IsExpression symbols strings visible ⟨id, line, .reference number, indices⟩
  | operation {id line : Nat} {operator : Operator} {type : Option ValueType} {lhs rhs : Node} :
      operator.isArithmetic → IsExpression symbols strings visible lhs →
      IsExpression symbols strings visible rhs →
      IsExpression symbols strings visible ⟨id, line, .operator operator type, [lhs, rhs]⟩

def IsReference (symbols : Array Variable) (strings : Array Literal) (visible : List Nat)
    (node : Node) : Prop :=
  IsExpression symbols strings visible node ∧ ∃ number, node.kind = .reference number

def IsFormat (strings : Array Literal) (node : Node) : Prop :=
  ∃ id line i literal, strings[i]? = some literal ∧ literal.IsText i ∧
    node = ⟨id, line, .literal literal, []⟩

/-- The first assignment of a loop: its counter has no indices. -/
def IsStart (symbols : Array Variable) (strings : Array Literal) (visible : List Nat)
    (node : Node) : Prop :=
  ∃ id line counter value, IsReference symbols strings visible counter ∧ counter.children = [] ∧
    IsExpression symbols strings visible value ∧ node = ⟨id, line, .assign, [counter, value]⟩

def IsComparison (symbols : Array Variable) (strings : Array Literal) (visible : List Nat)
    (node : Node) : Prop :=
  ∃ id line operator type lhs rhs, operator.isComparator ∧
    IsExpression symbols strings visible lhs ∧ IsExpression symbols strings visible rhs ∧
    node = ⟨id, line, .operator operator type, [lhs, rhs]⟩

/-- A statement without blocks. -/
inductive IsSimple (symbols : Array Variable) (strings : Array Literal) (visible : List Nat) :
    Node → Prop
  | assign {id line : Nat} {target value : Node} :
      IsReference symbols strings visible target → IsExpression symbols strings visible value →
      IsSimple symbols strings visible ⟨id, line, .assign, [target, value]⟩
  | goto {id line target : Nat} :
      IsSimple symbols strings visible ⟨id, line, .goto target, []⟩
  | print {id line : Nat} {format : Node} {arguments : List Node} :
      IsFormat strings format →
      (∀ argument ∈ arguments, IsExpression symbols strings visible argument) →
      IsSimple symbols strings visible ⟨id, line, .print, format :: arguments⟩
  | println {id line : Nat} {format : Node} {argument : Option Node} :
      IsFormat strings format → (∀ node ∈ argument, IsReference symbols strings visible node) →
      IsSimple symbols strings visible ⟨id, line, .println, format :: argument.toList⟩
  | read {id line : Nat} {format : Node} {targets : List Node} :
      IsFormat strings format → (∀ target ∈ targets, IsReference symbols strings visible target) →
      IsSimple symbols strings visible ⟨id, line, .read, format :: targets⟩

/-- A statement. Its blocks see their own variables too. -/
inductive IsStatement (symbols : Array Variable) (strings : Array Literal) : List Nat → Node → Prop
  | simple {visible : List Nat} {node : Node} :
      IsSimple symbols strings visible node → IsStatement symbols strings visible node
  | loop {visible vars : List Nat} {id line bodyId bodyLine : Nat} {start limit step : Node}
      {body : List Node} :
      IsStart symbols strings visible start → IsExpression symbols strings visible limit →
      IsExpression symbols strings visible step →
      (∀ node ∈ body, IsStatement symbols strings (vars ++ visible) node) →
      IsStatement symbols strings visible
        ⟨id, line, .loop, [start, limit, step, ⟨bodyId, bodyLine, .block vars, body⟩]⟩
  | branch {visible vars : List Nat} {id line thenId thenLine : Nat} {condition : Node}
      {consequence : List Node} :
      IsComparison symbols strings visible condition →
      (∀ node ∈ consequence, IsStatement symbols strings (vars ++ visible) node) →
      IsStatement symbols strings visible
        ⟨id, line, .branch, [condition, ⟨thenId, thenLine, .block vars, consequence⟩]⟩
  | branchElse {visible vars others : List Nat} {id line thenId thenLine elseId elseLine : Nat}
      {condition : Node} {consequence alternative : List Node} :
      IsComparison symbols strings visible condition →
      (∀ node ∈ consequence, IsStatement symbols strings (vars ++ visible) node) →
      (∀ node ∈ alternative, IsStatement symbols strings (others ++ visible) node) →
      IsStatement symbols strings visible
        ⟨id, line, .branch, [condition, ⟨thenId, thenLine, .block vars, consequence⟩,
          ⟨elseId, elseLine, .block others, alternative⟩]⟩

/-- Tables that hold all that others hold, up to the types of variables. -/
structure Extends (symbols symbols' : Array Variable) (strings strings' : Array Literal) :
    Prop where
  shapes : ∀ (n : Nat) (v : Variable), symbols[n]? = some v →
    ∃ v', symbols'[n]? = some v' ∧ v'.dims = v.dims
  literals : ∀ (i : Nat) (literal : Literal), strings[i]? = some literal →
    strings'[i]? = some literal

section Mono

variable {symbols symbols' : Array Variable} {strings strings' : Array Literal}
  {visible visible' : List Nat} {node : Node}

theorem Extends.refl : Extends symbols symbols strings strings :=
  ⟨fun _ v h => ⟨v, h, rfl⟩, fun _ _ h => h⟩

theorem Extends.trans {symbols'' : Array Variable} {strings'' : Array Literal}
    (first : Extends symbols symbols' strings strings')
    (second : Extends symbols' symbols'' strings' strings'') :
    Extends symbols symbols'' strings strings'' where
  shapes n v h := by
    obtain ⟨v', h', hd'⟩ := first.shapes n v h
    obtain ⟨v'', h'', hd''⟩ := second.shapes n v' h'
    exact ⟨v'', h'', hd''.trans hd'⟩
  literals i literal h := second.literals i literal (first.literals i literal h)

section Growth

variable (more : Extends symbols symbols' strings strings')

include more

theorem IsFormat.mono (h : IsFormat strings node) : IsFormat strings' node := by
  obtain ⟨id, line, i, literal, h, isText, eq⟩ := h
  exact ⟨id, line, i, literal, more.literals i literal h, isText, eq⟩

variable (sub : visible ⊆ visible')

include sub

theorem IsExpression.mono (h : IsExpression symbols strings visible node) :
    IsExpression symbols' strings' visible' node := by
  induction h with
  | integer h => exact .integer h
  | decimal => exact .decimal
  | text h isText => exact .text (more.literals _ _ h) isText
  | reference mem h length _ ih =>
    obtain ⟨v', h', hd⟩ := more.shapes _ _ h
    exact .reference (sub mem) h' (by rw [hd, length]) ih
  | operation arithmetic _ _ lhs rhs => exact .operation arithmetic lhs rhs

theorem IsReference.mono (h : IsReference symbols strings visible node) :
    IsReference symbols' strings' visible' node :=
  ⟨h.1.mono more sub, h.2⟩

theorem IsStart.mono (h : IsStart symbols strings visible node) :
    IsStart symbols' strings' visible' node := by
  obtain ⟨id, line, counter, value, hc, noIndex, hv, eq⟩ := h
  exact ⟨id, line, counter, value, hc.mono more sub, noIndex, hv.mono more sub, eq⟩

theorem IsComparison.mono (h : IsComparison symbols strings visible node) :
    IsComparison symbols' strings' visible' node := by
  obtain ⟨id, line, operator, type, lhs, rhs, compares, hl, hr, eq⟩ := h
  exact ⟨id, line, operator, type, lhs, rhs, compares, hl.mono more sub, hr.mono more sub, eq⟩

theorem IsSimple.mono (h : IsSimple symbols strings visible node) :
    IsSimple symbols' strings' visible' node := by
  cases h with
  | assign target value => exact .assign (target.mono more sub) (value.mono more sub)
  | goto => exact .goto
  | print format arguments =>
    exact .print (format.mono more) fun a ha => (arguments a ha).mono more sub
  | println format argument =>
    exact .println (format.mono more) fun a ha => (argument a ha).mono more sub
  | read format targets => exact .read (format.mono more) fun t ht => (targets t ht).mono more sub

theorem IsStatement.mono (h : IsStatement symbols strings visible node) :
    IsStatement symbols' strings' visible' node := by
  have inner {vars seen seen' : List Nat} (h : seen ⊆ seen') : vars ++ seen ⊆ vars ++ seen' := by
    simp [h]
  induction h generalizing visible' with
  | simple h => exact .simple (h.mono more sub)
  | loop start limit step _ ih =>
    exact .loop (start.mono more sub) (limit.mono more sub) (step.mono more sub)
      fun node mem => ih node mem (inner sub)
  | branch condition _ ih =>
    exact .branch (condition.mono more sub)
      fun node mem => ih node mem (inner sub)
  | branchElse condition _ _ ih ih' =>
    exact .branchElse (condition.mono more sub)
      (fun node mem => ih node mem (inner sub))
      fun node mem => ih' node mem (inner sub)

end Growth

end Mono

end Node

end LineBasic
