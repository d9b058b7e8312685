import LineBasic.Proofs.Lower.Labels
import Mathlib.Logic.Embedding.Basic

/-!
Two runs of code generation side by side: for two targets, for renumbered lines, and on variables
some of which have kept an address from an earlier run.
-/

namespace LineBasic

open List

open Lower (lineTags powerTags)

/-- The variables as they are before any of them is given an address. -/
def withoutAddresses (symbols : Array Variable) : Array Variable :=
  symbols.map ({ · with address := none })

/-- `table` has the same variables, some of which still have an address from an earlier run. -/
structure Reused (symbols table : Array Variable) : Prop where
  size : table.size = symbols.size
  same : ∀ (n : Nat) (v w : Variable), symbols[n]? = some v → table[n]? = some w →
    w = { v with address := w.address } ∧ (v.address = none ∨ v.address = w.address)

def Unplaced (symbols : Array Variable) (n : Nat) : Prop :=
  ∃ v, symbols[n]? = some v ∧ v.address = none

/-- A variable that has an address in `table` only. -/
def Stale (symbols table : Array Variable) (n : Nat) : Prop :=
  Unplaced symbols n ∧ ¬ Unplaced table n

namespace Reused

variable {symbols table : Array Variable}

theorem refl (symbols : Array Variable) : Reused symbols symbols where
  size := rfl
  same := by
    intro n v w eq eq'
    cases eq.symm.trans eq'
    exact ⟨rfl, .inr rfl⟩

/-- A variable is the same up to its address, which is the same too unless it is left over. -/
theorem lookup (h : Reused symbols table) (n : Nat) :
    ∃ v address, symbols[n]?.getD default = v ∧
      table[n]?.getD default = { v with address := address } ∧
      (v.address = address ∨ v.address = none ∧ Stale symbols table n) := by
  by_cases inside : n < symbols.size
  · have found := Array.getElem?_eq_getElem inside
    have inside' : n < table.size := h.size ▸ inside
    have found' := Array.getElem?_eq_getElem inside'
    obtain ⟨same, address⟩ := h.same n _ _ found found'
    refine ⟨symbols[n], table[n].address, ?_, ?_, ?_⟩
    · rw [found, Option.getD_some]
    · rw [found', Option.getD_some]
      exact same
    by_cases eq : symbols[n].address = table[n].address
    · exact .inl eq
    · have missing := address.resolve_right eq
      refine .inr ⟨missing, ⟨_, found, missing⟩, ?_⟩
      rintro ⟨w, found'', none⟩
      cases found'.symm.trans found''
      exact eq (missing.trans none.symm)
  · have missing : symbols[n]? = none := Array.getElem?_eq_none (by omega)
    have missing' : table[n]? = none := Array.getElem?_eq_none (by have := h.size; omega)
    exact ⟨default, none, by rw [missing]; rfl, by rw [missing']; rfl, .inl rfl⟩

theorem of_withoutAddresses (unset : ∀ v ∈ symbols, v.address = none)
    (same : withoutAddresses table = withoutAddresses symbols) : Reused symbols table where
  size := by simpa [withoutAddresses] using congrArg Array.size same
  same := by
    intro n v w found found'
    have missing := unset v (Array.mem_of_getElem? found)
    have erased := congrArg (·[n]?) same
    simp only [withoutAddresses, Array.getElem?_map, found, found', Option.map_some,
      Option.some.injEq] at erased
    refine ⟨?_, .inl missing⟩
    obtain ⟨name, dims, scope, type, address⟩ := w
    cases erased
    rfl

theorem eq_of_not_stale (h : Reused symbols table) (none : ∀ n, ¬ Stale symbols table n) :
    table = symbols := by
  refine Array.ext h.size fun n inside inside' => ?_
  obtain ⟨v, address, eq, eq', same⟩ := h.lookup n
  rw [Array.getElem?_eq_getElem inside, Option.getD_some] at eq'
  rw [Array.getElem?_eq_getElem inside', Option.getD_some] at eq
  cases same.resolve_right fun stale => none n stale.2
  rw [eq', eq]

theorem modify (h : Reused symbols table) (number top : Nat) :
    Reused (symbols.modify number ({ · with address := some top }))
      (table.modify number ({ · with address := some top })) where
  size := by rw [Array.size_modify, Array.size_modify, h.size]
  same := by
    intro n v w eq eq'
    rw [Array.getElem?_modify] at eq eq'
    split at eq
    next own =>
      rw [if_pos own] at eq'
      obtain ⟨v, found, rfl⟩ := Option.map_eq_some_iff.mp eq
      obtain ⟨w, found', rfl⟩ := Option.map_eq_some_iff.mp eq'
      refine ⟨?_, .inr rfl⟩
      rw [(h.same n v w found found').1]
    next other =>
      rw [if_neg other] at eq'
      exact h.same n v w eq eq'

end Reused

/-- Variables are given addresses, within the largest frame and with room above them. -/
structure Places (symbols table : Array Variable) : Prop where
  same : withoutAddresses table = withoutAddresses symbols
  fits : ∀ (n : Nat) (v : Variable) (address : Nat), table[n]? = some v → v.address = some address →
    symbols[n]? = some v ∨ 4 * Shape.count v.dims ≤ address ∧ address ≤ maxFrameSize

namespace Places

variable {symbols table table' : Array Variable}

theorem refl (symbols : Array Variable) : Places symbols symbols :=
  ⟨rfl, fun _ _ _ found _ => .inl found⟩

theorem trans (first : Places symbols table) (second : Places table table') :
    Places symbols table' := by
  refine ⟨second.same.trans first.same, fun n v address found place => ?_⟩
  rcases second.fits n v address found place with before | inside
  · exact first.fits n v address before place
  · exact .inr inside

theorem modify {number size top : Nat}
    (h : (symbols[number]?.getD default).size? = some size) (above : size ≤ top)
    (bound : top ≤ maxFrameSize) :
    Places symbols (symbols.modify number ({ · with address := some top })) := by
  constructor
  · refine Array.ext_getElem? fun n => ?_
    simp only [withoutAddresses, Array.getElem?_map, Array.getElem?_modify]
    split
    · cases symbols[n]? <;> rfl
    · rfl
  · intro n v address found place
    rw [Array.getElem?_modify] at found
    split at found
    next own =>
      obtain ⟨v, before, rfl⟩ := Option.map_eq_some_iff.mp found
      rw [own, before, Option.getD_some] at h
      have count : size = 4 * Shape.count v.dims := (Shape.size?_eq_some h).1
      have below : 4 * Shape.count v.dims ≤ top := by omega
      cases place
      exact .inr ⟨below, bound⟩
    next => exact .inl found

end Places

theorem unplaced_modify {symbols : Array Variable} {number top n : Nat} :
    Unplaced (symbols.modify number ({ · with address := some top })) n ↔
      number ≠ n ∧ Unplaced symbols n := by
  unfold Unplaced
  rw [Array.getElem?_modify]
  constructor
  · rintro ⟨v, found, none⟩
    split at found
    next =>
      obtain ⟨v, -, rfl⟩ := Option.map_eq_some_iff.mp found
      cases none
    next other => exact ⟨other, v, found, none⟩
  · rintro ⟨other, h⟩
    rwa [if_neg other]

def Instr.isNamed : Instr → Bool
  | label _ | jmp _ | jcc .. => true
  | _ => false

/-- A label and the one for the same place once lines are renumbered. -/
inductive Renames (ρ : Nat → Nat) : String → String → Prop
  | line {tag : String × String} (number : Nat) : tag ∈ lineTags →
      Renames ρ (tagged tag.1 number tag.2) (tagged tag.1 (ρ number) tag.2)
  | power {tag : String × String} (id : Nat) : tag ∈ powerTags →
      Renames ρ (tagged tag.1 id tag.2) (tagged tag.1 id tag.2)

/-- What may differ between two runs: the numbers of lines and the target, and with them instructions. -/
structure Variation where
  renumber : Nat ↪ Nat
  target : Target
  target' : Target
  Alike : Instr → Instr → Prop
  same : ∀ {instr : Instr}, instr.isNamed = false → Alike instr instr
  label : ∀ {name name' : String}, Renames renumber name name' → Alike (.label name) (.label name')
  jmp : ∀ {goal goal' : String}, Renames renumber goal goal' → Alike (.jmp goal) (.jmp goal')
  jcc : ∀ {condition : Condition} {goal goal' : String}, Renames renumber goal goal' →
    Alike (.jcc condition goal) (.jcc condition goal')
  call : ∀ {function : String}, function = "printf" ∨ function = "scanf" →
    Alike (.call (target.symbol function)) (.call (target'.symbol function))

variable {δ : Variation} {α β : Type}

abbrev Variation.CodeAlike (δ : Variation) : List Instr → List Instr → Prop :=
  Forall₂ δ.Alike

theorem Renames.eq {ρ : Nat → Nat} {name name' : String} (h : Renames ρ name name')
    (kept : ∀ n, ρ n = n) : name = name' := by
  cases h with
  | line number => rw [kept]
  | power => rfl

theorem Variation.CodeAlike.same {code : List Instr} (h : code.all (!·.isNamed) = true) :
    δ.CodeAlike code code :=
  forall₂_same.mpr fun instr mem => δ.same (by simpa using all_eq_true.mp h instr mem)

/-- Lowered code that ends alike, unless the first fails for want of an address that is left over. -/
def Lowered.Alike (δ : Variation) (stale : Prop) (first second : Lowered α) : Prop :=
  first.result = second.result ∧ δ.CodeAlike first.code second.code ∨
    (∃ fault, first.result = .error fault) ∧ stale

namespace Lowered.Alike

variable {stale : Prop} {first second : Lowered α}

theorem pure (a : α) : Alike δ stale (pure a) (pure a) :=
  .inl ⟨rfl, .nil⟩

theorem fail (fault : EmissionFault) : Alike δ stale (fail fault : Lowered α) (fail fault) :=
  .inl ⟨rfl, .nil⟩

theorem emit {code code' : List Instr} (h : δ.CodeAlike code code') :
    Alike δ stale (emit code) (emit code') :=
  .inl ⟨rfl, h⟩

theorem same {lowered : Lowered α} (h : lowered.code.all (!·.isNamed) = true) :
    Alike δ stale lowered lowered :=
  .inl ⟨rfl, .same h⟩

theorem bind {next next' : α → Lowered β} (h : Alike δ stale first second)
    (h' : ∀ a, Alike δ stale (next a) (next' a)) :
    Alike δ stale (first >>= next) (second >>= next') := by
  show Alike δ stale (Lowered.bind first next) (Lowered.bind second next')
  unfold Lowered.bind
  rcases h with ⟨result, code⟩ | ⟨⟨fault, failed⟩, why⟩
  · rw [← result]
    cases first.result with
    | error => exact .inl ⟨rfl, code⟩
    | ok a =>
      rcases h' a with ⟨result', code'⟩ | failed
      · exact .inl ⟨result', rel_append code code'⟩
      · exact .inr failed
  · rw [failed]
    exact .inr ⟨⟨fault, rfl⟩, why⟩

end Lowered.Alike

namespace Lower

variable {symbols table : Array Variable}

theorem label_line (line : Nat) : Renames δ.renumber (lineLabel line) (lineLabel (δ.renumber line)) := by
  rw [lineLabel_eq, lineLabel_eq]
  exact @Renames.line δ.renumber ("LINE_", "") line (by decide)

theorem alike_power (id : Nat) : δ.CodeAlike (power id) (power id) := by
  have loop : Renames δ.renumber (tagged "POW_" id "_LOOP") (tagged "POW_" id "_LOOP") :=
    @Renames.power δ.renumber ("POW_", "_LOOP") id (by decide)
  have test : Renames δ.renumber (tagged "POW_" id "_TEST") (tagged "POW_" id "_TEST") :=
    @Renames.power δ.renumber ("POW_", "_TEST") id (by decide)
  exact .cons (δ.same rfl) (.cons (δ.same rfl) (.cons (δ.same rfl) (.cons (δ.jmp test)
    (.cons (δ.label loop) (.cons (δ.same rfl) (.cons (δ.same rfl) (.cons (δ.label test)
      (.cons (δ.same rfl) (.cons (δ.jcc loop) .nil)))))))))

/-- Lowering on variables without and with left-over addresses. -/
abbrev Twins (δ : Variation) (symbols table : Array Variable) (first second : Lowered α) : Prop :=
  first.Alike δ (∃ n, Stale symbols table n) second

theorem isNamed_elementOffset (dims : List Nat) :
    (elementOffset dims).all (!·.isNamed) = true := by
  rw [elementOffset, all_cons, all_flatMap]
  refine (Bool.and_eq_true ..).mpr ⟨rfl, all_eq_true.mpr fun stride _ => ?_⟩
  split <;> rfl

theorem twins_storage (h : Reused symbols table) (n : Nat) (isElement : Bool)
    {indices indices' : Lowered Unit} (h' : Twins δ symbols table indices indices') :
    Twins δ symbols table (storage (symbols[n]?.getD default) isElement indices)
      (storage (table[n]?.getD default) isElement indices') := by
  obtain ⟨v, address, eq, eq', same⟩ := h.lookup n
  rw [eq, eq']
  unfold storage
  obtain rfl | ⟨missing, stale⟩ := same
  · cases v.address with
    | none => exact .fail _
    | some address =>
      cases isElement with
      | false => exact .pure _
      | true => exact h'.bind fun _ => .bind (.emit (.same (isNamed_elementOffset _))) fun _ => .pure _
  · rw [missing]
    exact .inr ⟨⟨_, rfl⟩, n, stale⟩

theorem twins_expressions {nodes : List Node}
    (h : ∀ node ∈ nodes, Twins δ symbols table (expression symbols node)
      (expression table (node.renumber δ.renumber))) :
    Twins δ symbols table (expressions symbols nodes)
      (expressions table (nodes.map (Node.renumber δ.renumber))) := by
  induction nodes with
  | nil =>
    rw [map_nil, expressions, expressions]
    exact .pure _
  | cons node nodes ih =>
    rw [map_cons, expressions, expressions]
    exact (h node (mem_cons_self ..)).bind fun _ =>
      ih fun other mem => h other (mem_cons_of_mem _ mem)

theorem twins_operation (id : Nat) (operator : Operator) :
    Twins δ symbols table (operation id operator) (operation id operator) := by
  cases operator with
  | caret => exact .emit (rel_append (alike_power id) (Variation.CodeAlike.same rfl))
  | plus | minus | star | slash => exact .emit (.same rfl)
  | _ => exact .fail _

theorem twins_integerValue (literal : Literal) :
    Twins δ symbols table (integerValue literal) (integerValue literal) := by
  unfold integerValue
  split
  next => exact .pure _
  next => exact .fail _

theorem twins_literal (value : Literal) :
    Twins δ symbols table (literal value) (literal value) := by
  unfold literal
  split
  next => exact (twins_integerValue value).bind fun _ => .emit (.same rfl)
  next =>
    split
    next => exact .emit (.same rfl)
    next => exact .fail _
  next => exact .fail _

mutual

theorem twins_expression (h : Reused symbols table) :
    (node : Node) → Twins δ symbols table (expression symbols node)
      (expression table (node.renumber δ.renumber))
  | ⟨id, line, kind, children⟩ => by
    have each := twins_each h children
    rw [Node.renumber_mk]
    cases kind with
    | literal value =>
      simp only [NodeKind.renumber, expression]
      exact twins_literal value
    | reference number =>
      obtain ⟨v, address, eq, eq', -⟩ := h.lookup number
      have same : (table[number]?.getD default).type = (symbols[number]?.getD default).type := by
        rw [eq, eq']
      simp only [NodeKind.renumber, expression, isEmpty_map]
      rw [same]
      split
      next => exact .fail _
      next =>
        exact (twins_storage h number _ (twins_expressions each)).bind fun _ => .emit (.same rfl)
    | operator op type =>
      rcases float_or_text_or type with rfl | rfl | ⟨noFloat, noText⟩
      · simp only [NodeKind.renumber, expression]
        exact .fail _
      · simp only [NodeKind.renumber, expression]
        exact .fail _
      · rcases children with _ | ⟨lhs, _ | ⟨rhs, _ | ⟨third, rest⟩⟩⟩
        case cons.cons.nil =>
          simp only [NodeKind.renumber, map_cons, map_nil, expression_operation noFloat noText]
          exact (each lhs (by simp)).bind fun _ => (each rhs (by simp)).bind fun _ =>
            twins_operation id op
        all_goals
          simp only [NodeKind.renumber, map_cons, map_nil, expression, malformed,
            length_cons, length_map]
          exact .fail _
    | _ =>
      simp only [NodeKind.renumber, expression]
      exact .fail _

theorem twins_each (h : Reused symbols table) :
    (nodes : List Node) → ∀ node ∈ nodes, Twins δ symbols table (expression symbols node)
      (expression table (node.renumber δ.renumber))
  | [] => fun _ mem => nomatch mem
  | node :: nodes => forall_mem_cons.mpr ⟨twins_expression h node, twins_each h nodes⟩

end

theorem twins_place (h : Reused symbols table) (node : Node) :
    Twins δ symbols table (place symbols node) (place table (node.renumber δ.renumber)) := by
  obtain ⟨id, line, kind, children⟩ := node
  rw [Node.renumber_mk]
  unfold place
  cases kind with
  | reference number =>
    simp only [NodeKind.renumber, isEmpty_map]
    exact twins_storage h number _ (twins_expressions (twins_each h children))
  | _ => exact .fail _

theorem twins_immediate? (node : Node) :
    Twins δ symbols table (immediate? node) (immediate? (node.renumber δ.renumber)) := by
  unfold immediate?
  rw [Node.kind_renumber]
  cases node.kind with
  | literal value =>
    show Twins δ symbols table (if _ then _ else _) (if _ then _ else _)
    split
    next => exact (twins_integerValue value).bind fun _ => .pure _
    next => exact .pure _
  | _ => exact .pure _

theorem malformed_renumber (ρ : Nat → Nat) (node : Node) :
    (malformed (node.renumber ρ) : Lowered α) = malformed node := by
  obtain ⟨id, line, kind, children⟩ := node
  rw [Node.renumber_mk, malformed, malformed, length_map]
  cases kind <;> rfl

theorem twins_operands {next next' : Node × Node → Lowered α} (node : Node)
    (h : ∀ lhs rhs, Twins δ symbols table (next (lhs, rhs))
      (next' (lhs.renumber δ.renumber, rhs.renumber δ.renumber))) :
    Twins δ symbols table (operands node >>= next) (operands (node.renumber δ.renumber) >>= next') := by
  unfold operands
  rw [malformed_renumber]
  obtain ⟨id, line, kind, children⟩ := node
  rw [Node.renumber_mk]
  rcases children with _ | ⟨lhs, _ | ⟨rhs, _ | ⟨third, rest⟩⟩⟩
  case cons.cons.nil => exact h lhs rhs
  all_goals exact .fail _

theorem twins_assignment (h : Reused symbols table) (node : Node) :
    Twins δ symbols table (assignment symbols node)
      (assignment table (node.renumber δ.renumber)) := by
  refine twins_operands node fun target value => .bind (twins_immediate? value) fun found => ?_
  cases found with
  | some => exact (twins_place h target).bind fun _ => .emit (.same rfl)
  | none =>
    exact (twins_expression h value).bind fun _ => (twins_place h target).bind fun _ =>
      .emit (.same rfl)

theorem twins_call {function : String} (known : function = "printf" ∨ function = "scanf")
    (format : Node) (arguments : Nat) :
    Twins δ symbols table (call δ.target function format arguments)
      (call δ.target' function (format.renumber δ.renumber) arguments) := by
  unfold call
  rw [Node.kind_renumber]
  cases format.kind with
  | literal value =>
    obtain ⟨text, type, label⟩ := value
    cases label with
    | some => exact .emit (.cons (δ.same rfl) (.cons (δ.call known) (.cons (δ.same rfl) .nil)))
    | none => exact .fail _
  | _ => exact .fail _

section

variable (h : Reused symbols table)

include h

theorem twins_print (node : Node) :
    Twins δ symbols table (print δ.target symbols node)
      (print δ.target' table (node.renumber δ.renumber)) := by
  unfold print
  rw [malformed_renumber]
  obtain ⟨id, line, kind, _ | ⟨format, nodes⟩⟩ := node
  · rw [Node.renumber_mk]
    exact .fail _
  · rw [Node.renumber_mk]
    simp only [map_cons, length_map, ← map_reverse]
    exact (twins_expressions fun node _ => twins_expression h node).bind fun _ =>
      twins_call (.inl rfl) format _

theorem twins_addresses (nodes : List Node) :
    Twins δ symbols table (nodes.forM (pushAddress symbols))
      ((nodes.map (Node.renumber δ.renumber)).forM (pushAddress table)) := by
  induction nodes with
  | nil => exact .pure _
  | cons node nodes ih =>
    exact ((twins_place h node).bind fun _ => .emit (.same rfl)).bind fun _ => ih

theorem twins_read (node : Node) :
    Twins δ symbols table (read δ.target symbols node)
      (read δ.target' table (node.renumber δ.renumber)) := by
  unfold read
  rw [malformed_renumber]
  obtain ⟨id, line, kind, _ | ⟨format, nodes⟩⟩ := node
  · rw [Node.renumber_mk]
    exact .fail _
  · rw [Node.renumber_mk]
    simp only [map_cons, length_map, ← map_reverse]
    exact (twins_addresses h _).bind fun _ => twins_call (.inr rfl) format _

theorem twins_comparison (condition : Node) {skip skip' : String}
    (label : Renames δ.renumber skip skip') : Twins δ symbols table (comparison symbols condition skip)
      (comparison table (condition.renumber δ.renumber) skip') := by
  have decided (operator : Operator) :
      Twins δ symbols table (decision operator) (decision operator) := by
    cases operator with
    | plus | minus | star | slash | caret => exact .fail _
    | _ => exact .pure _
  have jump (adjusted : Bool) (fails : Condition) : Twins δ symbols table
      (do
        if adjusted then
          Lowered.emit [.sub (.imm 1) (.reg .eax)]
        Lowered.emit [.cmp (.reg .eax) (.reg .edx), .jcc fails skip])
      (do
        if adjusted then
          Lowered.emit [.sub (.imm 1) (.reg .eax)]
        Lowered.emit [.cmp (.reg .eax) (.reg .edx), .jcc fails skip']) := by
    have last : δ.CodeAlike [.cmp (.reg .eax) (.reg .edx), .jcc fails skip]
        [.cmp (.reg .eax) (.reg .edx), .jcc fails skip'] :=
      .cons (δ.same rfl) (.cons (δ.jcc label) .nil)
    cases adjusted with
    | true => exact .bind (.emit (.same rfl)) fun _ => .emit last
    | false => exact .emit last
  unfold comparison
  rw [malformed_renumber, Node.kind_renumber]
  cases condition.kind with
  | operator operator type =>
    simp only [NodeKind.renumber]
    split
    next => exact .fail _
    next =>
      exact twins_operands condition fun lhs rhs => (twins_expression h lhs).bind fun _ =>
        (twins_expression h rhs).bind fun _ => .bind (.emit (.same rfl)) fun _ =>
          (decided _).bind fun decided => jump decided.1 decided.2
    next => exact .fail _
  | _ => exact .fail _

theorem twins_advance (start step : Node) :
    Twins δ symbols table (advance symbols start step)
      (advance table (start.renumber δ.renumber) (step.renumber δ.renumber)) :=
  twins_operands start fun counter _ => (twins_place h counter).bind fun _ =>
    (twins_expression h step).bind fun _ => .bind (.emit (.same rfl)) fun _ => .pure _

theorem twins_test (limit : Node) (counter : Operand)
    {start start' : String} (label : Renames δ.renumber start start') :
    Twins δ symbols table (test symbols limit counter start)
      (test table (limit.renumber δ.renumber) counter start') :=
  (twins_expression h limit).bind fun _ =>
    .emit (.cons (δ.same rfl) (.cons (δ.same rfl) (.cons (δ.jcc label) .nil)))

end

end Lower

/-- States of two runs that have come equally far. -/
structure Emission.Level (δ : Variation) (s t : Emission) : Prop where
  top : t.top = s.top
  lastLine : t.lastLine = s.lastLine.map δ.renumber
  symbols : Reused s.symbols t.symbols

/-- What two runs do from `s` and `t` on: for one target they emit code that is alike, and no more
addresses are left over than before. -/
structure Emission.Onward (δ : Variation) (s t s' t' : Emission) : Prop where
  level : s'.Level δ t'
  places : Places s.symbols s'.symbols
  fewer : ∀ n, Stale s'.symbols t'.symbols n → Stale s.symbols t.symbols n
  code : δ.target = δ.target' → ∃ code code', s'.code.toList = s.code.toList ++ code ∧
    t'.code.toList = t.code.toList ++ code' ∧ δ.CodeAlike code code'

namespace Emission.Onward

variable {s t s₁ t₁ s₂ t₂ : Emission}

theorem trans (h : Onward δ s t s₁ t₁) (h' : Onward δ s₁ t₁ s₂ t₂) : Onward δ s t s₂ t₂ where
  level := h'.level
  places := h.places.trans h'.places
  fewer n stale := h.fewer n (h'.fewer n stale)
  code one := by
    obtain ⟨code, code', eq, eq', alike⟩ := h.code one
    obtain ⟨rest, rest', eqRest, eqRest', alikeRest⟩ := h'.code one
    refine ⟨code ++ rest, code' ++ rest', ?_, ?_, rel_append alike alikeRest⟩
    · rw [eqRest, eq, append_assoc]
    · rw [eqRest', eq', append_assoc]

theorem keep {code code' : List Instr} (level : s₁.Level δ t₁)
    (symbols : s₁.symbols = s.symbols) (symbols' : t₁.symbols = t.symbols)
    (eq : s₁.code.toList = s.code.toList ++ code) (eq' : t₁.code.toList = t.code.toList ++ code')
    (alike : δ.target = δ.target' → δ.CodeAlike code code') : Onward δ s t s₁ t₁ := by
  refine ⟨level, ?_, fun n stale => ?_, fun one => ⟨code, code', eq, eq', alike one⟩⟩
  · rw [symbols]
    exact .refl _
  · rwa [symbols, symbols'] at stale

theorem refl (h : s.Level δ t) : Onward δ s t s t :=
  .keep h rfl rfl (append_nil _).symm (append_nil _).symm fun _ => .nil

end Emission.Onward

namespace Emit

open Emission (Onward)

variable {s t s₁ t₁ : Emission} {first second : Emit α}

/-- How two runs end: with the same result and the same fault, up to its line, or the first one fails
before some variable whose address is left over has been given one. -/
inductive EndsAlike (δ : Variation) (s t : Emission) :
    Except Diagnostic α × Emission → Except Diagnostic α × Emission → Prop
  | ok {a : α} {s' t' : Emission} : Onward δ s t s' t' → EndsAlike δ s t (.ok a, s') (.ok a, t')
  | error {d d' : Diagnostic} {s' t' : Emission} : Onward δ s t s' t' →
      ((∀ n, δ.renumber n = n) → d' = d) → EndsAlike δ s t (.error d, s') (.error d', t')
  | stale {n : Nat} {d : Diagnostic} {s' : Emission} {other : Except Diagnostic α × Emission} :
      Places s.symbols s'.symbols → Stale s.symbols t.symbols n → Unplaced s'.symbols n →
      EndsAlike δ s t (.error d, s') other

theorem EndsAlike.after {result result' : Except Diagnostic α × Emission}
    (h : EndsAlike δ s₁ t₁ result result') (onward : Onward δ s t s₁ t₁) :
    EndsAlike δ s t result result' := by
  cases h with
  | ok later => exact .ok (onward.trans later)
  | error later same => exact .error (onward.trans later) same
  | stale places stale unplaced =>
    exact .stale (onward.places.trans places) (onward.fewer _ stale) unplaced

theorem EndsAlike.places {result result' : Except Diagnostic α × Emission}
    (h : EndsAlike δ s t result result') : Places s.symbols result.2.symbols := by
  cases h with
  | ok onward | error onward => exact onward.places
  | stale places => exact places

theorem EndsAlike.same {result result' : Except Diagnostic α × Emission}
    (h : EndsAlike δ s t result result') (kept : ∀ n, δ.renumber n = n) :
    (result'.1 = result.1 ∧ Onward δ s t result.2 result'.2) ∨
      ∃ n, Stale s.symbols t.symbols n ∧ Unplaced result.2.symbols n := by
  cases h with
  | ok onward => exact .inl ⟨rfl, onward⟩
  | error onward eq => exact .inl ⟨congrArg Except.error (eq kept), onward⟩
  | stale _ stale unplaced => exact .inr ⟨_, stale, unplaced⟩

/-- Code generation that ends alike from states that have come equally far. -/
def Alike (δ : Variation) (first second : Emit α) : Prop :=
  ∀ s t : Emission, s.Level δ t → EndsAlike δ s t (first.run.run s) (second.run.run t)

theorem Alike.bind {next next' : α → Emit β} (h : Alike δ first second)
    (h' : ∀ a, Alike δ (next a) (next' a)) : Alike δ (first >>= next) (second >>= next') := by
  intro s t level
  rw [run_bind, run_bind]
  have ends := h s t level
  generalize first.run.run s = result, second.run.run t = result' at ends
  cases ends with
  | ok onward => exact (h' _ _ _ onward.level).after onward
  | error onward same => exact .error onward same
  | stale places stale unplaced => exact .stale places stale unplaced

theorem alike_pure (a : α) : Alike δ (pure a : Emit α) (pure a) :=
  fun _ _ level => .ok (.refl level)

theorem alike_fail (fault : EmissionFault) : Alike δ (fail fault : Emit α) (fail fault) :=
  fun _ _ level => .error (.refl level) fun _ => rfl

theorem alike_get_bind {next next' : Emission → Emit α} (h : ∀ s t : Emission, s.Level δ t →
      EndsAlike δ s t ((next s).run.run s) ((next' t).run.run t)) :
    Alike δ (get >>= next) (get >>= next') := by
  intro s t level
  rw [run_bind, run_bind]
  exact h s t level

theorem Alike.adapt {f g : Diagnostic → Diagnostic} (h : Alike δ first second)
    (same : (∀ n, δ.renumber n = n) → g = f) :
    Alike δ (ExceptT.adapt f first : Emit α) (ExceptT.adapt g second) := by
  intro s t level
  have ends := h s t level
  show EndsAlike δ s t ((first.run.run s).1.mapError f, (first.run.run s).2)
    ((second.run.run t).1.mapError g, (second.run.run t).2)
  generalize first.run.run s = result, second.run.run t = result' at ends
  cases ends with
  | ok onward => exact .ok onward
  | error onward eq => exact .error onward fun kept => by rw [same kept, eq kept]
  | stale places stale unplaced => exact .stale places stale unplaced

theorem alike_emit {code code' : List Instr} (h : δ.target = δ.target' → δ.CodeAlike code code') :
    Alike δ (emit code) (emit code') :=
  fun _ _ level => .ok (.keep ⟨level.top, level.lastLine, level.symbols⟩ rfl rfl (by simp)
    (by simp) h)

theorem alike_modify {f g : Emission → Emission} (level : ∀ s t, s.Level δ t → (f s).Level δ (g t))
    (kept : ∀ s, (f s).symbols = s.symbols ∧ (f s).code = s.code)
    (kept' : ∀ s, (g s).symbols = s.symbols ∧ (g s).code = s.code) :
    Alike δ (modify f) (modify g) :=
  fun s t h => .ok (.keep (level s t h) (kept s).1 (kept' t).1
    (by simp [(kept s).2]) (by simp [(kept' t).2]) fun _ => .nil)

theorem alike_record (event event' : Event) : Alike δ (record event) (record event') :=
  alike_modify (fun _ _ h => ⟨h.top, h.lastLine, h.symbols⟩) (fun _ => ⟨rfl, rfl⟩)
    fun _ => ⟨rfl, rfl⟩

theorem alike_leave (size : Nat) : Alike δ (leave size) (leave size) :=
  alike_modify (fun _ _ h => ⟨congrArg (· - size) h.top, h.lastLine, h.symbols⟩)
    (fun _ => ⟨rfl, rfl⟩) fun _ => ⟨rfl, rfl⟩

theorem alike_labelLine (line : Nat) :
    Alike δ (labelLine line) (labelLine (δ.renumber line)) := by
  refine alike_get_bind fun s t level => ?_
  have last : t.lastLine ≠ some (δ.renumber line) ↔ s.lastLine ≠ some line := by
    rw [level.lastLine]
    cases s.lastLine <;> simp
  have mark : Alike δ (modify ({ · with lastLine := some line }))
      (modify ({ · with lastLine := some (δ.renumber line) })) :=
    alike_modify (fun _ _ h => ⟨h.top, rfl, h.symbols⟩) (fun _ => ⟨rfl, rfl⟩) fun _ => ⟨rfl, rfl⟩
  by_cases new : s.lastLine ≠ some line
  · rw [if_pos new, if_pos (last.mpr new)]
    exact (alike_emit (fun _ => .cons (δ.label (Lower.label_line line)) .nil)).bind (fun _ => mark) s t level
  · rw [if_neg new, if_neg (mt last.mp new)]
    exact alike_pure _ s t level

theorem alike_lowered {lower lower' : Array Variable → Lowered α}
    (h : ∀ symbols table, Reused symbols table →
      Lower.Twins δ symbols table (lower symbols) (lower' table)) :
    Alike δ (lowered lower) (lowered lower') := by
  refine alike_get_bind fun s t level => ?_
  rcases h _ _ level.symbols with ⟨result, code⟩ | ⟨⟨fault, failed⟩, n, stale⟩
  · refine (alike_emit fun _ => code).bind (fun _ => ?_) s t level
    rw [← result]
    cases (lower s.symbols).result with
    | ok a => exact alike_pure a
    | error fault => exact alike_fail fault
  · dsimp only
    rw [failed]
    exact .stale (.refl _) stale stale.1

theorem alike_reserve (n : Nat) : Alike δ (reserve n) (reserve n) := by
  refine alike_get_bind fun s t level => ?_
  obtain ⟨v, address, eq, eq', -⟩ := level.symbols.lookup n
  have same : ({ v with address := address } : Variable).size? = v.size? := rfl
  rw [level.top, eq, eq']
  simp only [same]
  split
  next top placed =>
    obtain ⟨reserved, bound⟩ := Option.filter_eq_some_iff.mp placed
    obtain ⟨size, known, rfl⟩ := Option.map_eq_some_iff.mp reserved
    rw [run_bind, run_bind]
    refine .ok ⟨⟨rfl, level.lastLine, level.symbols.modify n _⟩,
      .modify (eq ▸ known) (by omega) (by simpa using bound), ?_,
      fun _ => ⟨[], [], (append_nil _).symm, (append_nil _).symm, .nil⟩⟩
    rintro m ⟨unplaced, placed⟩
    obtain ⟨other, unplaced⟩ := unplaced_modify.mp unplaced
    exact ⟨unplaced, fun unplaced' => placed (unplaced_modify.mpr ⟨other, unplaced'⟩)⟩
  next => exact alike_fail _ s t level

theorem alike_reserves (vars : List Nat) : Alike δ (vars.forM reserve) (vars.forM reserve) := by
  induction vars with
  | nil => exact alike_pure _
  | cons n vars ih => exact (alike_reserve n).bind fun _ => ih

theorem alike_enter (vars : List Nat) : Alike δ (enter vars) (enter vars) := by
  refine alike_get_bind fun s t level => (alike_reserves vars).bind (fun _ => ?_) s t level
  refine alike_get_bind fun s₁ t₁ later => ?_
  rw [level.top, later.top]
  exact alike_pure _ s₁ t₁ later

end Emit

namespace Lower

open Emit

variable {nodes : List Node}

theorem alike_statements (h : ∀ node ∈ nodes, Alike δ (statement δ.target node)
      (statement δ.target' (node.renumber δ.renumber))) :
    Alike δ (statements δ.target nodes)
      (statements δ.target' (nodes.map (Node.renumber δ.renumber))) := by
  induction nodes with
  | nil =>
    rw [map_nil, statements, statements]
    exact alike_pure _
  | cons node nodes ih =>
    rw [map_cons, statements, statements]
    exact (h node (mem_cons_self ..)).bind fun _ =>
      ih fun other mem => h other (mem_cons_of_mem _ mem)

theorem alike_grow (size : Nat) : δ.CodeAlike (grow size) (grow size) := by
  unfold grow
  split
  next => exact .nil
  next => exact .same rfl

theorem alike_block (id line : Nat) (kind : NodeKind)
    (h : Alike δ (statements δ.target nodes)
      (statements δ.target' (nodes.map (Node.renumber δ.renumber)))) :
    Alike δ (block δ.target ⟨id, line, kind, nodes⟩)
      (block δ.target' (Node.renumber δ.renumber ⟨id, line, kind, nodes⟩)) := by
  have vars : (kind.renumber δ.renumber).vars? = kind.vars? := by cases kind <;> rfl
  have shrunk (size : Nat) : δ.CodeAlike (shrink size) (shrink size) := by
    unfold shrink
    split
    next => exact .nil
    next => exact .same rfl
  rw [Node.renumber_mk, block, block, vars]
  exact (alike_enter _).bind fun size => (alike_record _ _).bind fun _ =>
    (alike_emit fun _ => alike_grow size).bind fun _ => h.bind fun _ =>
      (alike_emit fun _ => shrunk size).bind fun _ => alike_leave size

theorem alike_statement_of (id line : Nat) (kind : NodeKind)
    (blocks : ∀ node ∈ nodes, Alike δ (block δ.target node)
      (block δ.target' (node.renumber δ.renumber))) :
    Alike δ (statement δ.target ⟨id, line, kind, nodes⟩)
      (statement δ.target' (Node.renumber δ.renumber ⟨id, line, kind, nodes⟩)) := by
  have mk (kind : NodeKind) : Node.renumber δ.renumber ⟨id, line, kind, nodes⟩ =
    ⟨id, δ.renumber line, kind.renumber δ.renumber, nodes.map (Node.renumber δ.renumber)⟩ :=
      Node.renumber_mk ..
  have broken (kind : NodeKind) : Alike δ (lowered (fun _ => malformed ⟨id, line, kind, nodes⟩) : Emit Unit)
      (lowered fun _ => malformed ⟨id, δ.renumber line, kind.renumber δ.renumber,
        nodes.map (Node.renumber δ.renumber)⟩) := by
    rw [← mk, malformed_renumber]
    exact alike_lowered fun _ _ _ => .fail _
  rw [mk, statement.eq_def, statement.eq_def]
  simp only
  refine (alike_labelLine line).bind fun _ => Alike.adapt ?_ fun same => by rw [same]
  cases kind with
  | assign =>
    exact mk .assign ▸ alike_lowered fun _ _ h => twins_assignment h ⟨id, line, .assign, nodes⟩
  | loop =>
    rcases nodes with _ | ⟨start, _ | ⟨limit, _ | ⟨step, _ | ⟨body, _ | ⟨more, rest⟩⟩⟩⟩⟩
    case cons.cons.cons.cons.nil =>
      have top : Renames δ.renumber (loopStart line) (loopStart (δ.renumber line)) :=
        @Renames.line δ.renumber ("FOR_", "_START") line (by decide)
      have again : Renames δ.renumber (loopTest line) (loopTest (δ.renumber line)) :=
        @Renames.line δ.renumber ("FOR_", "_TEST") line (by decide)
      exact (alike_lowered fun _ _ h => twins_assignment h start).bind fun _ =>
        (alike_emit (fun _ => .cons (δ.jmp again) (.cons (δ.label top) .nil))).bind fun _ =>
          (blocks body (by simp)).bind fun _ =>
            (alike_lowered fun _ _ h => twins_advance h start step).bind fun counter =>
              (alike_emit (fun _ => .cons (δ.label again) .nil)).bind fun _ =>
                alike_lowered fun _ _ h => twins_test h limit counter top
    all_goals exact broken .loop
  | branch =>
    have other : Renames δ.renumber (branchElse line) (branchElse (δ.renumber line)) :=
      @Renames.line δ.renumber ("IF_", "_ELSE") line (by decide)
    have stop : Renames δ.renumber (branchEnd line) (branchEnd (δ.renumber line)) :=
      @Renames.line δ.renumber ("IF_", "_END") line (by decide)
    rcases nodes with _ | ⟨condition, _ | ⟨consequence, _ | ⟨alternative, _ | ⟨more, rest⟩⟩⟩⟩
    case cons.cons.nil =>
      exact (alike_lowered fun _ _ h => twins_comparison h condition stop).bind fun _ =>
        (blocks consequence (by simp)).bind fun _ =>
          alike_emit (fun _ => .cons (δ.jmp stop) (.cons (δ.label stop) .nil))
    case cons.cons.cons.nil =>
      exact (alike_lowered fun _ _ h => twins_comparison h condition other).bind fun _ =>
        (blocks consequence (by simp)).bind fun _ =>
          (alike_emit (fun _ => .cons (δ.jmp stop) (.cons (δ.label other) .nil))).bind fun _ =>
            (blocks alternative (by simp)).bind fun _ => alike_emit (fun _ => .cons (δ.label stop) .nil)
    all_goals exact broken .branch
  | goto goal => exact alike_emit (fun _ => .cons (δ.jmp (label_line goal)) .nil)
  | print => exact mk .print ▸ alike_lowered fun _ _ h => twins_print h ⟨id, line, .print, nodes⟩
  | println => exact mk .println ▸ alike_lowered fun _ _ h => twins_print h ⟨id, line, .println, nodes⟩
  | read => exact mk .read ▸ alike_lowered fun _ _ h => twins_read h ⟨id, line, .read, nodes⟩
  | _ => exact alike_fail _

mutual

theorem alike_statement : (node : Node) →
    Alike δ (statement δ.target node) (statement δ.target' (node.renumber δ.renumber))
  | ⟨id, line, kind, nodes⟩ => alike_statement_of id line kind (alike_blocks nodes)

theorem alike_all : (nodes : List Node) → ∀ node ∈ nodes,
    Alike δ (statement δ.target node) (statement δ.target' (node.renumber δ.renumber))
  | [] => fun _ mem => nomatch mem
  | node :: nodes => forall_mem_cons.mpr ⟨alike_statement node, alike_all nodes⟩

theorem alike_blocks : (nodes : List Node) → ∀ node ∈ nodes,
    Alike δ (block δ.target node) (block δ.target' (node.renumber δ.renumber))
  | [] => fun _ mem => nomatch mem
  | ⟨id, line, kind, inner⟩ :: nodes => forall_mem_cons.mpr
      ⟨alike_block id line kind (alike_statements (alike_all inner)), alike_blocks nodes⟩

end

theorem alike_start {first second : Emit Unit} (h : Alike δ first second) :
    Alike δ (if δ.target = .mingw then emit [.call "___main"] >>= fun _ => first else first)
      (if δ.target' = .mingw then emit [.call "___main"] >>= fun _ => second else second) := by
  intro s t level
  split
  next isMingw =>
    split
    next => exact (alike_emit fun _ => .same rfl).bind (fun _ => h) s t level
    next other =>
      exact (h { s with code := s.code ++ [Instr.call "___main"] } t
          ⟨level.top, level.lastLine, level.symbols⟩).after
        (.keep ⟨level.top, level.lastLine, level.symbols⟩ rfl rfl Array.toList_appendList
          (append_nil _).symm fun one => absurd (one ▸ isMingw) other)
  next other =>
    split
    next isMingw =>
      exact (h s { t with code := t.code ++ [Instr.call "___main"] }
          ⟨level.top, level.lastLine, level.symbols⟩).after
        (.keep ⟨level.top, level.lastLine, level.symbols⟩ rfl rfl (append_nil _).symm
          Array.toList_appendList fun one => absurd (one ▸ isMingw) other)
    next => exact h s t level

/-- Code is generated alike for a program and for the one with its lines renumbered. -/
theorem alike_program {program program' : Program} {sourceName : Option String}
    (kind : program'.root.kind = program.root.kind)
    (children : program'.root.children = program.root.children.map (Node.renumber δ.renumber))
    (texts : δ.target = δ.target' → δ.CodeAlike (header δ.target sourceName program.strings.toList)
      (header δ.target' sourceName program'.strings.toList))
    (main : δ.target = δ.target' →
      δ.Alike (.label (δ.target.symbol "main")) (.label (δ.target'.symbol "main"))) :
    Alike δ (Lower.program δ.target sourceName program)
      (Lower.program δ.target' sourceName program') := by
  unfold Lower.program
  rw [kind, children]
  refine (alike_emit texts).bind fun _ => (alike_emit fun one => ?_).bind fun _ =>
    (alike_enter _).bind fun size => (alike_record _ _).bind fun _ =>
      (alike_emit fun _ => alike_grow size).bind fun _ => ?_
  · have name : δ.Alike (.globl (δ.target.symbol "main")) (.globl (δ.target'.symbol "main")) := by
      rw [← one]
      exact δ.same rfl
    exact .cons (δ.same rfl) (.cons name (.cons (main one) (.cons (δ.same rfl)
      (.cons (δ.same rfl) .nil))))
  · exact alike_start ((alike_statements (alike_all _)).bind fun _ => alike_emit fun _ => .same rfl)

end Lower

theorem not_stale_self {symbols : Array Variable} {n : Nat} : ¬ Stale symbols symbols n :=
  fun stale => stale.2 stale.1

theorem Emission.Onward.symbols_eq {s t s' t' : Emission} (h : Emission.Onward δ s t s' t')
    (start : t.symbols = s.symbols) : t'.symbols = s'.symbols :=
  h.level.symbols.eq_of_not_stale fun n stale => not_stale_self (start ▸ h.fewer n stale)

theorem Emit.EndsAlike.cases {s t : Emission} {result result' : Except Diagnostic Unit × Emission}
    (h : EndsAlike δ s t result result') (start : t.symbols = s.symbols) :
    (∃ d d', result.1 = .error d ∧ result'.1 = .error d') ∨
      result.1 = .ok () ∧ result'.1 = .ok () ∧ Emission.Onward δ s t result.2 result'.2 := by
  cases h with
  | ok onward => exact .inr ⟨rfl, rfl, onward⟩
  | error => exact .inl ⟨_, _, rfl, rfl⟩
  | stale _ stale => exact absurd (start ▸ stale) not_stale_self

end LineBasic
