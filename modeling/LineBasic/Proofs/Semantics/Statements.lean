import LineBasic.Proofs.Semantics.Formats

/-!
Code for statements without blocks does what the statements mean, and code for comparisons goes where
they lead.
-/

namespace LineBasic

open List Machine Lower
open Node (IsExpression IsReference IsFormat IsStart IsComparison IsSimple value? values? cell? word? holds?)

variable {image : Image} {symbols table : Array Variable} {strings : Array Literal} {reserved : Nat}
  {visible : List Nat} {w w' : World} {b : Scratch} {base s : State} {node : Node} {nodes : List Node}

section Assignment

theorem does_integerValue (literal : Literal) :
    (integerValue literal).Does image s fun word s' => s' = s ∧
      Text.int32? literal.text.toList = some word := by
  unfold integerValue
  split
  next read => exact Lowered.completes_pure ⟨rfl, read⟩
  next => exact Lowered.completes_fail

theorem does_immediate? (symbols : Array Variable) (store : Store) (node : Node) :
    (immediate? node).Does image s fun found s' => s' = s ∧
      ∀ word ∈ found, value? symbols store node = some (.int word) := by
  obtain ⟨id, line, kind, children⟩ := node
  unfold immediate?
  split
  next literal eq =>
    cases eq
    split
    next isInt =>
      refine Lowered.completes_bind (does_integerValue literal) fun word s' ⟨same, number⟩ => ?_
      refine Lowered.completes_pure ⟨same, ?_⟩
      rintro _ ⟨⟩
      rw [value?, Literal.value?, isInt]
      simp only [number, Option.map_some]
    next => exact Lowered.completes_pure ⟨rfl, by simp⟩
  next => exact Lowered.completes_pure ⟨rfl, by simp⟩

theorem executes_assign {source operand : Operand} {n k address : Nat} {v : Variable} {value : Value}
    {word : Int32} (storage : Storage table reserved visible)
    (mirrors : Mirrors image table reserved visible w base) (mem : n ∈ visible)
    (found : table[n]? = some v) (eq : v.address = some address) (inside : k < Shape.count v.dims)
    (locates : operand.Locates (base.reg .ebp) b.edx (elementAt (base.reg .ebp) address k))
    (atop : b.Atop base s)
    (read : b.read source = some word) (depicts : Depicts image value word) :
    image.Executes [.mov source operand] s (Mirrors image table reserved visible
      { w with store := w.store.write (n, k) value }) := by
  have above := mirrors.above storage mem found eq inside
  rw [mirrors.elementAt_eq] at locates
  refine (completes_store locates atop above read).mono fun s' atop' => ?_
  exact (mirrors.store storage mem found eq inside depicts).atop storage atop'

end Assignment

section Calls

theorem call_eq {format : Node} {cs : List Char} (suits : Suits image symbols table strings)
    (h : IsFormat strings format) (characters : format.format? = some cs) :
    ∃ label datum, image.data.find? (·.label == label) = some datum ∧
      image.string datum.address = .ok (String.ofList cs) ∧
      ∀ target function n, call target function format n =
        Lowered.emit [.push (.addr label), .call (target.symbol function),
          .add (.imm (Int32.ofNat (wordSize * (n + 1)))) (.reg .esp)] := by
  obtain ⟨id, line, i, ⟨text, type, label⟩, found, isText, rfl⟩ := h
  obtain ⟨datum, labelled, string⟩ := suits.texts i _ cs found characters
  cases isText.label
  exact ⟨textLabel i, datum, labelled, string, fun _ _ _ => rfl⟩

theorem does_pushAddress {n k : Nat} (suits : Suits image symbols table strings)
    (storage : Storage table reserved visible) (mirrors : Mirrors image table reserved visible w base)
    (h : IsReference table strings visible node)
    (element : cell? symbols w.store node = some (n, k)) (atop : b.Atop base s) :
    (pushAddress table node).Does image s fun _ s' => ∃ b' address, Scratch.Atop b' base s' ∧
      Addressed table visible (n, k) address ∧ b'.words = address :: b.words := by
  obtain ⟨mem, v, found, located⟩ := does_place suits storage mirrors h element atop
  refine Lowered.completes_bind located ?_
  rintro operand s₁ ⟨b₁, offset, atop₁, top₁, eq, inside, locates⟩
  refine Lowered.completes_emit ?_
  show image.Executes ([Instr.lea operand .eax] ++ [Instr.push (.reg .eax)]) s₁ _
  rw [mirrors.elementAt_eq] at locates
  refine (executes_lea locates atop₁).append fun s₂ atop₂ => ?_
  refine (Scratch.executes_run atop₂ rfl).mono fun s₃ atop₃ => ?_
  exact ⟨_, _, atop₃, ⟨v, offset, mem, found, eq, inside, rfl⟩, congrArg (_ :: ·) top₁⟩

theorem does_addresses {elements : List (Nat × Nat)} (suits : Suits image symbols table strings)
    (storage : Storage table reserved visible) (mirrors : Mirrors image table reserved visible w base)
    (h : ∀ node ∈ nodes, IsReference table strings visible node)
    (found : Forall₂ (fun node element => cell? symbols w.store node = some element) nodes
      elements) (atop : b.Atop base s) :
    (nodes.forM (pushAddress table)).Does image s fun _ s' => ∃ b' addresses,
      Scratch.Atop b' base s' ∧ Forall₂ (Addressed table visible) elements addresses ∧
        b'.words = addresses.reverse ++ b.words := by
  induction found generalizing b s with
  | nil => exact Lowered.completes_pure ⟨b, [], atop, .nil, rfl⟩
  | @cons node element nodes elements first _ ih =>
    refine Lowered.completes_bind (does_pushAddress suits storage mirrors (h node (mem_cons_self ..))
      first atop) ?_
    rintro _ s₁ ⟨b₁, address, atop₁, addressed, top⟩
    refine (ih (fun other mem => h other (mem_cons_of_mem _ mem)) atop₁).mono ?_
    rintro _ s₂ ⟨b₂, addresses, atop₂, all, rest⟩
    refine ⟨b₂, address :: addresses, atop₂, .cons addressed all, ?_⟩
    rw [rest, top, reverse_cons, append_assoc]
    rfl

end Calls

namespace Operator

def Holds : Operator → Int → Int → Prop
  | equal, a, b | same, a, b => a = b
  | notEqual, a, b => a ≠ b
  | less, a, b => a < b
  | lessEqual, a, b => a ≤ b
  | greater, a, b => b < a
  | greaterEqual, a, b => b ≤ a
  | _, _, _ => False

instance (operator : Operator) (a b : Int) : Decidable (operator.Holds a b) := by
  cases operator <;> unfold Holds <;> infer_instance

/-- One is taken from the right side of `<` and `>=`, which is the lowest word. -/
def wraps : Operator → Int32 → Bool
  | less, b | greaterEqual, b => decide (b = Int32.minValue)
  | _, _ => false

/-- Whether the code for a comparison goes on as if it held. -/
def taken (operator : Operator) (a b : Int32) : Bool :=
  decide (operator.Holds a.toInt b.toInt) != operator.wraps b

end Operator

section Conditions

theorem Mirrors.goto (h : Mirrors image table reserved visible w s) (pc : Nat) :
    Mirrors image table reserved visible w { s with pc } :=
  h.congr rfl rfl rfl rfl rfl

/-- One is taken from the right side of `<` and `>=`, which leaves their meaning as it is. -/
theorem sub_one_lt_iff {x y : Int32} (h : y ≠ Int32.minValue) : y - 1 < x ↔ y ≤ x := by
  have lowest : Int32.minValue.toInt = -0x80000000 := by decide
  have apart : y.toInt ≠ Int32.minValue.toInt := fun eq => h (Int32.toInt_inj.mp eq)
  have least := Int32.le_toInt y
  have most := Int32.toInt_lt y
  have below : (y - 1).toInt = y.toInt - 1 := @toInt_sub_ofNat y 1 (by omega) (by omega)
  rw [Int32.lt_iff_toInt_lt, Int32.le_iff_toInt_le, below]
  omega

theorem not_sub_one_lt (x : Int32) : ¬ Int32.minValue - 1 < x := by
  have highest : (Int32.minValue - 1).toInt = 0x7fffffff := by decide
  have most := Int32.toInt_lt x
  rw [Int32.lt_iff_toInt_lt]
  omega

theorem decision_eq {operator : Operator} (h : operator.isComparator) (x y : Int32) :
    ∃ adjusted fails, decision operator = pure (adjusted, fails) ∧
      ∀ s : State, s.order = compare x (if adjusted then y - 1 else y) →
        s.holds fails = !operator.taken x y := by
  -- what is compared is the right side itself, or the word below it
  have lowered : decide (y - 1 < x) = (decide (y.toInt ≤ x.toInt) != decide (y = Int32.minValue)) := by
    by_cases lowest : y = Int32.minValue
    · have least := Int32.le_toInt x
      subst lowest
      simpa [not_sub_one_lt] using least
    · simp [sub_one_lt_iff lowest, Int32.le_iff_toInt_le, lowest]
  have reversed (a b : Int) : decide (a < b) = !decide (b ≤ a) := by
    simp only [← decide_not, Int.not_le]
  cases operator with
  | equal | same =>
    refine ⟨false, .notEqual, rfl, fun s order => ?_⟩
    simp [State.holds, order, bne, compare_eq_eq, Operator.taken, Operator.wraps, Operator.Holds,
      Int32.toInt_inj]
  | notEqual =>
    refine ⟨false, .equal, rfl, fun s order => ?_⟩
    simp [State.holds, order, compare_eq_eq, Operator.taken, Operator.wraps, Operator.Holds,
      Int32.toInt_inj]
  | less =>
    refine ⟨true, .greater, rfl, fun s order => ?_⟩
    simp [State.holds, order, compare_eq_gt, lowered, Operator.taken, Operator.wraps, Operator.Holds,
      reversed]
  | lessEqual =>
    refine ⟨false, .greater, rfl, fun s order => ?_⟩
    simp [State.holds, order, compare_eq_gt, Operator.taken, Operator.wraps, Operator.Holds,
      Int32.lt_iff_toInt_lt, reversed]
  | greater =>
    refine ⟨false, .lessEqual, rfl, fun s order => ?_⟩
    simp [State.holds, order, bne, compare_eq_gt, Operator.taken, Operator.wraps, Operator.Holds,
      Int32.lt_iff_toInt_lt]
  | greaterEqual =>
    refine ⟨true, .lessEqual, rfl, fun s order => ?_⟩
    simp [State.holds, order, bne, compare_eq_gt, lowered, Operator.taken, Operator.wraps, Operator.Holds]
  | plus | minus | star | slash | caret => cases h

theorem taken_eq {operator : Operator} {x y : Int32} {outcome : Bool}
    (h : operator.decide? x y = some outcome) : operator.taken x y = outcome := by
  cases operator with
  | equal | same | notEqual =>
    cases h
    simp [Operator.taken, Operator.wraps, Operator.Holds, Int32.toInt_inj]
  | lessEqual | greater =>
    cases h
    simp [Operator.taken, Operator.wraps, Operator.Holds, Int32.lt_iff_toInt_lt, Int32.le_iff_toInt_le]
  | less | greaterEqual =>
    simp only [Operator.decide?] at h
    split at h
    next => cases h
    next apart =>
      cases h
      simp [Operator.taken, Operator.wraps, Operator.Holds, Int32.lt_iff_toInt_lt,
        Int32.le_iff_toInt_le, apart]
  | plus | minus | star | slash | caret => cases h

/-- Code for a comparison of words goes to `skip` unless it goes on as if the comparison held. -/
theorem chooses_comparison {full : Prop} {id line : Nat} {operator : Operator}
    {type : Option ValueType} {lhs rhs : Node} {x y : Int32} (above : Above table visible s)
    (low : (s.reg .esp).toInt ≤ stackTop.toInt) (compares : operator.isComparator)
    (isLhs : IsExpression table strings visible lhs) (isRhs : IsExpression table strings visible rhs)
    (onLeft : s.word? image table lhs = some x) (onRight : s.word? image table rhs = some y)
    (room : (Scratch.ofState s).Room full s
      (Node.temporaries ⟨id, line, .operator operator type, [lhs, rhs]⟩)) (skip : String) :
    (comparison table ⟨id, line, .operator operator type, [lhs, rhs]⟩ skip).Chooses image full s skip
      (!operator.taken x y) fun s' => ∃ b, Scratch.Atop b s s' ∧ b.words = [] := by
  obtain ⟨adjusted, fails, chosen, fits⟩ := decision_eq compares x y
  have atop := Scratch.atop_ofState low
  rw [Node.temporaries] at room
  unfold comparison
  split
  next => exact Lowered.chooses_fail
  next =>
    rename_i eq
    cases eq
    simp only [operands, pure_bind, chosen]
    refine Lowered.chooses_bind (completes_expression above isLhs onLeft atop
      (room.of_le (by omega))) ?_
    rintro _ s₁ ⟨b₁, atop₁, top₁⟩
    have room₁ : b₁.Room full s rhs.temporaries := by
      refine room.of_le ?_
      rw [top₁, length_append, length_singleton]
      omega
    refine Lowered.chooses_bind (completes_expression above isRhs onRight atop₁ room₁) ?_
    rintro _ s₂ ⟨b₂, atop₂, top₂⟩
    have top₂ : b₂.words = [y, x] := top₂.trans (congrArg _ top₁)
    obtain ⟨_, eax, ecx, edx, order⟩ := b₂
    cases top₂
    have popped : (Lowered.emit [.pop .eax, .pop .edx]).Completes image full s₂ fun _ =>
        Scratch.Atop ⟨[], y, ecx, x, order⟩ s :=
      Lowered.completes_emit (Scratch.completes_run (.inr (by simp)) atop₂ rfl)
    have compared (z : Int32) (s' : State) (atop' : Scratch.Atop ⟨[], z, ecx, x, order⟩ s s')
        (eq : z = if adjusted then y - 1 else y) :
        (Lowered.emit ([Instr.cmp (.reg .eax) (.reg .edx)] ++ [Instr.jcc fails skip])).Chooses image
          full s' skip (!operator.taken x y) fun s' => ∃ b, Scratch.Atop b s s' ∧ b.words = [] :=
      Lowered.chooses_emit (Scratch.completes_run (.inr (by simp)) atop' rfl)
        (fun s₄ atop₄ => fits s₄ (eq ▸ atop₄.order)) fun s₄ pc atop₄ => ⟨_, atop₄.goto pc, rfl⟩
    refine Lowered.chooses_bind popped fun _ s₃ atop₃ => ?_
    cases adjusted with
    | false => exact compared y s₃ atop₃ rfl
    | true =>
      have lowered : (Lowered.emit [.sub (.imm 1) (.reg .eax)]).Completes image full s₃ fun _ =>
          Scratch.Atop ⟨[], y - 1, ecx, x, order⟩ s :=
        Lowered.completes_emit (Scratch.completes_run (.inr (by simp)) atop₃ rfl)
      exact Lowered.chooses_bind lowered fun _ s₄ atop₄ => compared (y - 1) s₄ atop₄ rfl
  next other => exact absurd rfl (other operator type)

end Conditions

section Counters

variable {counter : Node}

/-- The counter of a loop is a variable without indices. -/
structure Counts (table : Array Variable) (visible : List Nat) (counter : Node) (n : Nat)
    (v : Variable) (address : Nat) : Prop where
  mem : n ∈ visible
  kind : counter.kind = .reference n
  children : counter.children = []
  found : table[n]? = some v
  dims : v.dims = []
  place : v.address = some address

theorem exists_counts (storage : Storage table reserved visible)
    (isCounter : IsReference table strings visible counter) (plain : counter.children = []) :
    ∃ n v address, Counts table visible counter n v address := by
  obtain ⟨isExpression, number, eq⟩ := isCounter
  cases isExpression with
  | @reference id line n v indices mem found length _ =>
    cases plain
    obtain ⟨v', address, found', place, _⟩ := storage.inside n mem
    cases found.symm.trans found'
    exact ⟨n, v, address, mem, rfl, rfl, found, eq_nil_of_length_eq_zero length.symm, place⟩
  | _ => cases eq

namespace Counts

variable {n address : Nat} {v : Variable} {store : Store}
  (h : Counts table visible counter n v address)

include h

theorem element (shapes : SameShapes symbols table) :
    Node.element? symbols n [] = some 0 := by
  rw [element?_eq shapes h.found, h.dims]
  rfl

theorem cell?_eq (shapes : SameShapes symbols table) :
    cell? symbols store counter = some (n, 0) := by
  rw [cell?, h.kind, h.children]
  simp only [values?, h.element shapes, Option.bind_eq_bind, Option.bind_some]
  rfl

theorem value?_eq (shapes : SameShapes symbols table) :
    value? symbols store counter = store n 0 := by
  obtain ⟨id, line, kind, children⟩ := counter
  cases h.kind
  cases h.children
  rw [value?, values?]
  simp only [h.element shapes, Option.bind_eq_bind, Option.bind_some]

theorem inside : 0 < Shape.count v.dims := by
  rw [h.dims]
  decide

theorem place_eq :
    Lower.place table counter = pure (.mem (-Int32.ofNat address) .ebp) := by
  rw [Lower.place, h.kind]
  simp only [h.found, h.children, Lower.storage, Option.getD_some, h.place]
  rfl

theorem advance_eq (id line : Nat)
    (value step : Node) :
    advance table ⟨id, line, .assign, [counter, value]⟩ step = (do
      expression table step
      Lowered.emit [.pop .eax, .add (.reg .eax) (.mem (-Int32.ofNat address) .ebp)]
      return .mem (-Int32.ofNat address) .ebp) := by
  simp only [advance, operands, pure_bind, h.place_eq]

theorem counterPlace_eq {id line : Nat}
    {value step : Node} (succeeds : (advance table ⟨id, line, .assign, [counter, value]⟩ step).Succeeds) :
    counterPlace table ⟨id, line, .assign, [counter, value]⟩ step =
      .mem (-Int32.ofNat address) .ebp := by
  rw [counterPlace]
  rw [h.advance_eq] at succeeds ⊢
  obtain ⟨u, result, _⟩ := Lowered.succeeds_bind.mp succeeds
  rw [Lowered.result_bind, result]
  rfl

theorem held_eq
    (mirrors : Mirrors image table reserved visible w s) (shapes : SameShapes symbols table) {x : Int32}
    (held : word? symbols w.store counter = some x) :
    s.memory[cell address 0]? = some x := by
  obtain ⟨value, held, isInt⟩ := Option.bind_eq_some_iff.mp held
  rw [h.value?_eq shapes] at held
  obtain ⟨word, stored, depicts⟩ := mirrors.cells n h.mem v address 0 value h.found h.place h.inside held
  cases depicts.eq_of_int? isInt
  exact stored

end Counts

end Counters

section Meaning

variable (suits : Suits image symbols table strings) (storage : Storage table reserved visible)
  (mirrors : Mirrors image table reserved visible w s)

include suits storage mirrors

theorem does_assignment {id line : Nat} {target value : Node}
    (isTarget : IsReference table strings visible target)
    (isValue : IsExpression table strings visible value)
    (assigned : w.assign? symbols target value = some w') :
    (assignment table ⟨id, line, .assign, [target, value]⟩).Does image s fun _ =>
      Mirrors image table reserved visible w' := by
  obtain ⟨v, evaluated, assigned⟩ := Option.bind_eq_some_iff.mp assigned
  obtain ⟨⟨n, k⟩, element, assigned⟩ := Option.bind_eq_some_iff.mp assigned
  cases assigned
  have atop := mirrors.ofState
  simp only [assignment, operands, pure_bind]
  refine Lowered.completes_bind (does_immediate? symbols w.store value) ?_
  rintro found s₀ ⟨same, immediate⟩
  subst same
  cases found with
  | some word =>
    have known := immediate word rfl
    rw [evaluated] at known
    cases known
    obtain ⟨mem, u, found, located⟩ := does_place suits storage mirrors isTarget element atop
    refine Lowered.completes_bind located ?_
    rintro operand s₁ ⟨b₁, address, atop₁, _, eq, inside, locates⟩
    exact Lowered.completes_emit (executes_assign storage mirrors mem found eq inside locates atop₁ rfl .int)
  | none =>
    refine Lowered.completes_bind (does_expression suits storage mirrors isValue evaluated atop) ?_
    rintro _ s₁ ⟨b₁, word, atop₁, depicts, top₁⟩
    obtain ⟨mem, u, found, located⟩ := does_place suits storage mirrors isTarget element atop₁
    refine Lowered.completes_bind located ?_
    rintro operand s₂ ⟨b₂, address, atop₂, top₂, eq, inside, locates⟩
    refine Lowered.completes_emit ?_
    show image.Executes ([Instr.pop .eax] ++ [Instr.mov (.reg .eax) operand]) s₂ _
    refine (Scratch.completes_pop atop₂ (top₂.trans top₁) rfl).append fun s₃ atop₃ => ?_
    refine executes_assign storage mirrors mem found eq inside ?_ atop₃ rfl depicts
    exact locates

theorem does_start {id line : Nat} {counter value : Node}
    (h : IsStart table strings visible ⟨id, line, .assign, [counter, value]⟩)
    (assigned : w.assign? symbols counter value = some w') :
    (assignment table ⟨id, line, .assign, [counter, value]⟩).Does image s fun _ =>
      Mirrors image table reserved visible w' := by
  obtain ⟨_, _, _, _, isCounter, _, isValue, eq⟩ := h
  cases eq
  exact does_assignment suits storage mirrors isCounter isValue assigned

theorem does_print {target : Target} {id line : Nat} {kind : NodeKind} {format : Node}
    (isFormat : IsFormat strings format)
    (isArgument : ∀ node ∈ nodes, IsExpression table strings visible node)
    (printed : w.print? symbols format nodes = some w') :
    (print target table ⟨id, line, kind, format :: nodes⟩).Does image s fun _ =>
      Mirrors image table reserved visible w' := by
  obtain ⟨cs, characters, printed⟩ := Option.bind_eq_some_iff.mp printed
  obtain ⟨values, evaluated, printed⟩ := Option.bind_eq_some_iff.mp printed
  obtain ⟨text, shown, printed⟩ := Option.bind_eq_some_iff.mp printed
  cases printed
  obtain ⟨label, datum, labelled, string, calls⟩ := call_eq suits isFormat characters
  have evaluated := forall₂_reverse_iff.mpr (forall₂_of_values? evaluated)
  have atop := mirrors.ofState
  simp only [print]
  obtain ⟨words, depicts, pushed⟩ := does_expressions suits storage mirrors
    (fun node mem => isArgument node (mem_reverse.mp mem)) evaluated atop
  refine Lowered.completes_bind pushed ?_
  rintro _ s₁ ⟨b₁, atop₁, top₁⟩
  have depicts := forall₂_reverse_iff.mpr depicts
  rw [reverse_reverse] at depicts
  have top₁ : b₁.words = words.reverse := top₁.trans (append_nil _)
  have length : b₁.words.length = nodes.length := by
    have first := evaluated.length_eq
    have second := depicts.length_eq
    rw [length_reverse, length_reverse] at first
    rw [top₁]
    omega
  rw [calls]
  refine Lowered.completes_emit ((completes_printf labelled string shown (top₁ ▸ depicts) atop₁
    (.inl trivial) length).mono ?_)
  rintro s₂ ⟨b₂, atop₂, _⟩
  exact (mirrors.write (String.ofList text)).atop storage atop₂

theorem does_read {target : Target} {id line : Nat} {kind : NodeKind} {format : Node}
    (isFormat : IsFormat strings format)
    (isTarget : ∀ node ∈ nodes, IsReference table strings visible node)
    (done : w.read? symbols format nodes = some w') :
    (Lower.read target table ⟨id, line, kind, format :: nodes⟩).Does image s fun _ =>
      Mirrors image table reserved visible w' := by
  obtain ⟨elements, found, done⟩ := Option.bind_eq_some_iff.mp done
  obtain ⟨cs, characters, done⟩ := Option.bind_eq_some_iff.mp done
  split at done
  next count =>
    obtain ⟨⟨numbers, rest⟩, taken, done⟩ := Option.bind_eq_some_iff.mp done
    cases done
    obtain ⟨label, datum, labelled, string, calls⟩ := call_eq suits isFormat characters
    have found := mapM_eq_some_iff.mp found
    have atop := mirrors.ofState
    simp only [Lower.read]
    refine Lowered.completes_bind (does_addresses suits storage mirrors
      (fun node mem => isTarget node (mem_reverse.mp mem)) (forall₂_reverse_iff.mpr found)
      atop) ?_
    rintro _ s₁ ⟨b₁, addresses, atop₁, addressed, top₁⟩
    have addressed := forall₂_reverse_iff.mpr addressed
    rw [reverse_reverse] at addressed
    have top₁ : b₁.words = addresses.reverse := top₁.trans (append_nil _)
    have length : b₁.words.length = nodes.length := by
      rw [top₁, found.length_eq, addressed.length_eq]
    rw [found.length_eq] at taken
    rw [calls]
    have after : ∀ s', (∃ b' base', Mirrors image table reserved visible
        { w with store := w.store.writeAll elements numbers, input := rest } base' ∧
          Scratch.Atop b' base' s' ∧ b'.words = []) → Mirrors image table reserved visible
            { w with store := w.store.writeAll elements numbers, input := rest } s' := by
      rintro s' ⟨b', base', mirrors', atop', _⟩
      exact mirrors'.atop storage atop'
    refine Lowered.completes_emit ((completes_library labelled atop₁ (.inl trivial) length
      fun s₂ atop₂ => ?_).mono after)
    obtain ⟨base, s₃, scanned, pc, atop₃, mirrors'⟩ := @scan_eq image table reserved visible w
      (b₁.push datum.address) s s₂ elements addresses.reverse numbers rest 1 storage addressed mirrors
      atop₂ top₁ taken
    refine ⟨base, s₃.setReg .eax 0, ?_, pc, mirrors', atop₃.set rfl⟩
    obtain ⟨loaded, _⟩ := slots_tail (show SlotsFrom s₂ (s₂.reg .esp) (datum.address :: b₁.words) from
      atop₂.slots)
    have called : s₂.scanf image = .ok s₃ := by
      rw [State.scanf, loaded]
      simp only [bind, Except.bind, string, String.toList_ofList]
      rw [conversions_eq, count, found.length_eq]
      exact scanned
    rw [State.call_scanf, called]
    rfl
  next => cases done

theorem word?_of_mirrors {word : Int32}
    (h : IsExpression table strings visible node) (evaluated : word? symbols w.store node = some word) :
    s.word? image table node = some word := by
  obtain ⟨value, evaluated, isInt⟩ := Option.bind_eq_some_iff.mp evaluated
  obtain ⟨word', evaluated, depicts⟩ := exists_word suits storage mirrors h evaluated
  cases depicts.eq_of_int? isInt
  exact evaluated

theorem decides_comparison {outcome : Bool} (h : IsComparison table strings visible node)
    (decided : holds? symbols w.store node = some outcome) (skip : String) :
    (comparison table node skip).Decides image s skip (!outcome)
      (Mirrors image table reserved visible w) := by
  obtain ⟨id, line, operator, type, lhs, rhs, compares, isLhs, isRhs, rfl⟩ := h
  obtain ⟨x, onLeft, decided⟩ := Option.bind_eq_some_iff.mp decided
  obtain ⟨y, onRight, decided⟩ := Option.bind_eq_some_iff.mp decided
  rw [← taken_eq decided]
  intro succeeds lies pc found
  refine (chooses_comparison (mirrors.above_visible storage) mirrors.ofState.low compares isLhs isRhs
    (word?_of_mirrors suits storage mirrors isLhs onLeft)
    (word?_of_mirrors suits storage mirrors isRhs onRight) (.inl trivial) skip succeeds lies pc found).mono ?_
  rintro s' ⟨reached, b, atop, _⟩
  exact ⟨reached, mirrors.atop storage atop⟩

variable {counter : Node} {n address : Nat} {v : Variable}
  (counts : Counts table visible counter n v address)

include counts

theorem does_advance {id line : Nat} {value step : Node}
    (isStep : IsExpression table strings visible step)
    (advanced : w.advance? symbols counter step = some w') :
    (advance table ⟨id, line, .assign, [counter, value]⟩ step).Does image s fun _ =>
      Mirrors image table reserved visible w' := by
  obtain ⟨element, found, advanced⟩ := Option.bind_eq_some_iff.mp advanced
  obtain ⟨more, onStep, advanced⟩ := Option.bind_eq_some_iff.mp advanced
  obtain ⟨word, held, advanced⟩ := Option.bind_eq_some_iff.mp advanced
  cases advanced
  cases (counts.cell?_eq suits.shapes).symm.trans found
  have stored := counts.held_eq mirrors suits.shapes held
  have above := mirrors.above storage counts.mem counts.found counts.place counts.inside
  rw [counts.advance_eq]
  refine Lowered.completes_bind (completes_expression (mirrors.above_visible storage) isStep
    (word?_of_mirrors suits storage mirrors isStep onStep) mirrors.ofState (.inl trivial)) ?_
  rintro _ s₁ ⟨b₁, atop₁, top₁⟩
  have added : (Lowered.emit ([Instr.pop .eax] ++
      [Instr.add (.reg .eax) (.mem (-Int32.ofNat address) .ebp)])).Does image s₁ fun _ =>
        Mirrors image table reserved visible
          { w with store := w.store.write (n, 0) (.int (word + more)) } := by
    refine Lowered.completes_emit ((Scratch.completes_pop atop₁ top₁ rfl).append fun s₂ atop₂ => ?_)
    refine (completes_add (mirrors.locates_scalar address _) atop₂ above stored rfl).mono ?_
    intro s₃ atop₃
    exact (mirrors.store storage counts.mem counts.found counts.place counts.inside .int).atop storage
      atop₃
  exact Lowered.completes_bind added fun _ s₂ mirrors' => Lowered.completes_pure mirrors'

/-- Code for the test of a loop goes round again if the counter is not above the limit. -/
theorem decides_test {limit : Node} {x y : Int32}
    (isLimit : IsExpression table strings visible limit)
    (held : word? symbols w.store counter = some x) (onLimit : word? symbols w.store limit = some y)
    (start : String) :
    (test table limit (.mem (-Int32.ofNat address) .ebp) start).Decides image s start
      (decide (x ≤ y)) (Mirrors image table reserved visible w) := by
  have stored := counts.held_eq mirrors suits.shapes held
  have above := mirrors.above storage counts.mem counts.found counts.place counts.inside
  refine Lowered.chooses_bind (completes_expression (mirrors.above_visible storage) isLimit
    (word?_of_mirrors suits storage mirrors isLimit onLimit) mirrors.ofState (.inl trivial)) ?_
  rintro _ s₁ ⟨b₁, atop₁, top₁⟩
  have compared : image.Executes ([Instr.pop .eax] ++
      [Instr.cmp (.reg .eax) (.mem (-Int32.ofNat address) .ebp)]) s₁
      (Scratch.Atop ⟨[], y, b₁.ecx, b₁.edx, compare x y⟩ s) := by
    refine (Scratch.completes_pop atop₁ top₁ rfl).append fun s₂ atop₂ => ?_
    have value := (atop₂.memory _ above).trans stored
    obtain ⟨resolved, resolves, read⟩ := (mirrors.locates_scalar address _).read atop₂ value image.data
    exact Scratch.completes_cmp atop₂ resolves read rfl
  refine Lowered.chooses_emit compared (fun s₃ atop₃ => ?_)
    fun s₃ pc atop₃ => (mirrors.atop storage atop₃).goto pc
  simp [State.holds, atop₃.order, bne, compare_eq_gt, ← Int32.not_lt]

end Meaning

end LineBasic
