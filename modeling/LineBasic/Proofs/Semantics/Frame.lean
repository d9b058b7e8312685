import LineBasic.Proofs.Semantics.Reference
import LineBasic.Proofs.Semantics.Scratch

/-!
How a state of the machine mirrors what a run of the tree has got so far.
-/

namespace LineBasic

open Machine Lower

/-- How a value is held in a word: a number as itself, a text by its address. -/
inductive Depicts (image : Image) : Value → Int32 → Prop
  | int {word : Int32} : Depicts image (.int word) word
  | text {text : String} {word : Int32} : image.string word = .ok text →
      Depicts image (.text text) word

theorem Depicts.eq_of_int? {image : Image} {value : Value} {word n : Int32}
    (h : Depicts image value word) (isInt : value.int? = some n) : word = n := by
  cases h with
  | int => exact Option.some.inj isInt
  | text => cases isInt

def SameShapes (symbols table : Array Variable) : Prop :=
  ∀ n : Nat, symbols[n]?.map Variable.dims = table[n]?.map Variable.dims

theorem element?_eq {symbols table : Array Variable} {n : Nat} {v : Variable} {values : List Value}
    (shapes : SameShapes symbols table) (found : table[n]? = some v) :
    Node.element? symbols n values = (values.mapM Value.index?).bind (Shape.offset? v.dims) := by
  have same := shapes n
  rw [found, Option.map_some, Option.map_eq_some_iff] at same
  obtain ⟨v', found', dims⟩ := same
  rw [Node.element?, found', ← dims]
  rfl

/-- An image holds the strings that a tree refers to, and all its jumps lead somewhere. -/
structure Suits (image : Image) (symbols table : Array Variable) (strings : Array Literal) :
    Prop where
  shapes : SameShapes symbols table
  texts : ∀ i literal cs, strings[i]? = some literal → literal.characters? = some cs →
    ∃ datum, image.data.find? (·.label == textLabel i) = some datum ∧
      image.string datum.address = .ok (String.ofList cs)
  jumps : ∀ (pc : Nat) (command : Command) (goal : String), image.code[pc]? = some command →
    command.action = .jmp goal → ∃ pc', image.labels.lookup goal = some pc'

/-- The frame of a state holds what can be seen of the variables. -/
structure Mirrors (image : Image) (table : Array Variable) (reserved : Nat) (visible : List Nat)
    (w : World) (s : State) : Prop where
  ebp : s.reg .ebp = frameBase
  esp : (s.reg .esp).toInt + reserved ≤ frameBase.toInt
  saved : s.memory[frameBase]? = some 0
  sentinel : s.memory[frameBase + 4]? = some returnSentinel
  cells : ∀ n ∈ visible, ∀ v address k value, table[n]? = some v → v.address = some address →
    k < Shape.count v.dims → w.store n k = some value →
      ∃ word, s.memory[cell address k]? = some word ∧ Depicts image value word
  input : s.input = w.input
  output : s.output = w.output

section Cells

variable {table : Array Variable} {reserved : Nat} {visible : List Nat} {n address k : Nat}
  {v : Variable}

theorem toInt_cell_of_mem (storage : Storage table reserved visible) (mem : n ∈ visible)
    (found : table[n]? = some v) (place : v.address = some address) (lt : k < Shape.count v.dims) :
    (cell address k).toInt = frameBase.toInt - address + 4 * k ∧ address ≤ reserved ∧
      4 * k + 4 ≤ address := by
  obtain ⟨v', address', found', place', below, above⟩ := storage.inside n mem
  cases found.symm.trans found'
  cases place.symm.trans place'
  have bound := storage.bound
  rw [toInt_cell (by omega) (by omega), toInt_frameBase]
  omega

theorem cell_ne (storage : Storage table reserved visible) {m address' j : Nat} {u : Variable}
    (mem : n ∈ visible) (found : table[n]? = some v) (place : v.address = some address)
    (lt : k < Shape.count v.dims) (mem' : m ∈ visible) (found' : table[m]? = some u)
    (place' : u.address = some address') (lt' : j < Shape.count u.dims) (ne : (m, j) ≠ (n, k)) :
    cell address k ≠ cell address' j := by
  obtain ⟨eq, _⟩ := toInt_cell_of_mem storage mem found place lt
  obtain ⟨eq', _⟩ := toInt_cell_of_mem storage mem' found' place' lt'
  refine ne_of_toInt ?_
  by_cases same : n = m
  · subst same
    cases found.symm.trans found'
    cases place.symm.trans place'
    have apart : j ≠ k := fun same => ne (same ▸ rfl)
    omega
  · have apart := storage.apart n mem m mem' same v address u address' found place found' place'
    omega

end Cells

namespace Mirrors

variable {image : Image} {table : Array Variable} {reserved : Nat} {visible vars : List Nat}
  {w : World} {b : Scratch} {base s s' : State} {n address k : Nat} {v : Variable} {value : Value}
  {word : Int32}

section

variable (h : Mirrors image table reserved visible w s)

include h

theorem low :
    (s.reg .esp).toInt ≤ frameBase.toInt := by
  have := h.esp
  omega

theorem ofState : (Scratch.ofState s).Atop s s := by
  have low := h.low
  rw [toInt_frameBase] at low
  exact Scratch.atop_ofState (by rw [toInt_stackTop]; omega)

theorem elementAt_eq (address k : Nat) :
    elementAt (s.reg .ebp) address k = cell address k := by
  rw [h.ebp, cell_eq]

theorem above
    (storage : Storage table reserved visible) (mem : n ∈ visible) (found : table[n]? = some v)
    (place : v.address = some address) (lt : k < Shape.count v.dims) :
    (s.reg .esp).toInt ≤ (cell address k).toInt := by
  obtain ⟨eq, _⟩ := toInt_cell_of_mem storage mem found place lt
  have := h.esp
  omega

end

theorem atop (h : Mirrors image table reserved visible w base)
    (storage : Storage table reserved visible) (atop : b.Atop base s) :
    Mirrors image table reserved visible w s := by
  have low := h.low
  have bottom := toInt_frameBase
  have higher : (frameBase + 4).toInt = 1048572 := by decide
  refine ⟨atop.ebp.trans h.ebp, ?_, ?_, ?_, fun n mem v address k value found place lt written => ?_,
    atop.input.trans h.input, atop.output.trans h.output⟩
  · have top := atop.esp
    have esp := h.esp
    omega
  · rw [atop.memory _ low, h.saved]
  · rw [atop.memory _ (by omega), h.sentinel]
  · rw [atop.memory _ (h.above storage mem found place lt)]
    exact h.cells n mem v address k value found place lt written

section

variable (h : Mirrors image table reserved visible w s)

include h

theorem congr (esp : s'.reg .esp = s.reg .esp)
    (ebp : s'.reg .ebp = s.reg .ebp) (memory : s'.memory = s.memory) (input : s'.input = s.input)
    (output : s'.output = s.output) : Mirrors image table reserved visible w s' := by
  refine ⟨ebp.trans h.ebp, esp ▸ h.esp, memory ▸ h.saved, memory ▸ h.sentinel, ?_, input.trans h.input,
    output.trans h.output⟩
  rw [memory]
  exact h.cells

theorem store
    (storage : Storage table reserved visible) (mem : n ∈ visible) (found : table[n]? = some v)
    (place : v.address = some address) (lt : k < Shape.count v.dims)
    (depicts : Depicts image value word) :
    Mirrors image table reserved visible { w with store := w.store.write (n, k) value }
      (s.store (cell address k) word) := by
  obtain ⟨eq, _, _⟩ := toInt_cell_of_mem storage mem found place lt
  have bottom := toInt_frameBase
  have higher : (frameBase + 4).toInt = 1048572 := by decide
  refine ⟨h.ebp, h.esp, ?_, ?_, fun m mem' u address' j value' found' place' lt' written => ?_, h.input,
    h.output⟩
  · rw [State.memory_store, if_neg (ne_of_toInt (by omega)), h.saved]
  · rw [State.memory_store, if_neg (ne_of_toInt (by omega)), h.sentinel]
  · simp only [Store.write] at written
    split at written
    next same =>
      cases same
      cases written
      cases found.symm.trans found'
      cases place.symm.trans place'
      exact ⟨word, by rw [State.memory_store, if_pos rfl], depicts⟩
    next other =>
      rw [State.memory_store,
        if_neg (cell_ne storage mem found place lt mem' found' place' lt' other)]
      exact h.cells m mem' u address' j value' found' place' lt' written

theorem enter {size : Nat}
    (esp : (s'.reg .esp).toInt = (s.reg .esp).toInt - size) (ebp : s'.reg .ebp = s.reg .ebp)
    (memory : s'.memory = s.memory) (input : s'.input = s.input) (output : s'.output = s.output) :
    Mirrors image table (reserved + size) (vars ++ visible)
      { w with store := w.store.forget vars } s' := by
  refine ⟨ebp.trans h.ebp, ?_, memory ▸ h.saved, memory ▸ h.sentinel,
    fun n mem v address k value found place lt written => ?_, input.trans h.input,
    output.trans h.output⟩
  · have := h.esp
    omega
  · simp only [Store.forget] at written
    split at written
    next => cases written
    next outer =>
      rw [memory]
      have mem := (List.mem_append.mp mem).resolve_left outer
      exact h.cells n mem v address k value found place lt written

end

/-- What is outside a scope is still there at its end, also if the stack is left as it is. -/
theorem leave (h : Mirrors image table (reserved + k) (vars ++ visible) w s)
    (esp : (s'.reg .esp).toInt ≤ (s.reg .esp).toInt + k) (ebp : s'.reg .ebp = s.reg .ebp)
    (memory : s'.memory = s.memory) (input : s'.input = s.input) (output : s'.output = s.output) :
    Mirrors image table reserved visible w s' := by
  refine ⟨ebp.trans h.ebp, ?_, memory ▸ h.saved, memory ▸ h.sentinel, fun n mem => ?_,
    input.trans h.input, output.trans h.output⟩
  · have := h.esp
    omega
  · rw [memory]
    exact h.cells n (List.mem_append_right _ mem)

theorem outer (h : Mirrors image table (reserved + k) (vars ++ visible) w s) :
    Mirrors image table reserved visible w s :=
  h.leave (by omega) rfl rfl rfl rfl

end Mirrors

/-- An operand is the place of a word, with the frame pointer in `ebp` and the index in `edx`. -/
def Operand.Locates (operand : Operand) (ebp edx address : Int32) : Prop :=
  ∃ disp index, (∀ data, operandOf data operand = some (.mem disp .ebp index)) ∧
    ∀ s : State, s.reg .ebp = ebp → s.reg .edx = edx →
      s.address (.mem disp .ebp index) = .ok address

section Places

variable {image : Image} {full : Prop} {b : Scratch} {base s : State} {operand : Operand}
  {address word : Int32}

theorem locates_scalar (ebp : Int32) (address : Nat) (edx : Int32) :
    (Operand.mem (-Int32.ofNat address) .ebp).Locates ebp edx (elementAt ebp address 0) := by
  refine ⟨_, _, fun _ => rfl, fun s frame _ => ?_⟩
  show Except.ok (s.reg .ebp + -Int32.ofNat address) = _
  rw [frame, elementAt]
  simp

theorem Mirrors.locates_scalar {table : Array Variable} {reserved : Nat} {visible : List Nat} {w : World}
    (h : Mirrors image table reserved visible w s) (address : Nat) (edx : Int32) :
    (Operand.mem (-Int32.ofNat address) .ebp).Locates (s.reg .ebp) edx (cell address 0) := by
  rw [← h.elementAt_eq]
  exact LineBasic.locates_scalar ..

theorem locates_element (ebp : Int32) (address k : Nat) :
    (Operand.indexed (-Int32.ofNat address) .ebp .edx wordSize).Locates ebp (Int32.ofNat k)
      (elementAt ebp address k) := by
  refine ⟨_, _, fun _ => rfl, fun s frame edx => ?_⟩
  show Except.ok (s.reg .ebp + -Int32.ofNat address + s.reg .edx * Int32.ofNat wordSize) = _
  rw [frame, edx, elementAt]

section

variable (h : operand.Locates (base.reg .ebp) b.edx address) (atop : b.Atop base s)

include h atop

theorem Operand.Locates.read (found : s.memory[address]? = some word) (data : List Datum) :
    ∃ resolved, operandOf data operand = some resolved ∧ s.next.read resolved = .ok word := by
  obtain ⟨disp, index, resolves, located⟩ := h
  refine ⟨_, resolves data, ?_⟩
  have place := located s.next atop.ebp atop.edx
  rw [State.read, place]
  exact State.load_eq found

theorem completes_store {source : Operand} (above : (base.reg .esp).toInt ≤ address.toInt)
    (read : b.read source = some word) :
    image.Completes full [.mov source operand] s (b.Atop (base.store address word)) := by
  obtain ⟨disp, index, resolves, located⟩ := h
  obtain ⟨resolved, found, value⟩ := @Scratch.Atop.read b base s.next word atop.next
    image.data source read
  have acts : actionOf image.data (.mov source operand) =
      some (.mov resolved (.mem disp .ebp index)) :=
    actionOf_of_two (.mov source operand) rfl rfl found (resolves _)
  have place := located s.next atop.ebp atop.edx
  refine Image.completes_one (.inr (Action.hasRoom_of_growth rfl)) acts fun _ _ =>
    ⟨s.next.store address word, ?_, rfl, atop.next.store above word⟩
  simp only [step, value, State.write, place, bind, Except.bind]
  rfl

theorem completes_add {source : Operand} {old : Int32}
    (above : (base.reg .esp).toInt ≤ address.toInt) (found : base.memory[address]? = some old)
    (read : b.read source = some word) :
    image.Completes full [.add source operand] s (b.Atop (base.store address (old + word))) := by
  obtain ⟨disp, index, resolves, located⟩ := h
  obtain ⟨resolved, found', value⟩ := @Scratch.Atop.read b base s.next word atop.next
    image.data source read
  have acts : actionOf image.data (.add source operand) =
      some (.add resolved (.mem disp .ebp index)) :=
    actionOf_of_two (.add source operand) rfl rfl found' (resolves _)
  have place := located s.next atop.ebp atop.edx
  have before : s.next.read (.mem disp .ebp index) = .ok old := by
    rw [State.read, place]
    exact State.load_eq ((atop.memory address above).trans found)
  refine Image.completes_one (.inr (Action.hasRoom_of_growth rfl)) acts fun _ _ =>
    ⟨s.next.store address (old + word), ?_, rfl, atop.next.store above (old + word)⟩
  simp only [step, State.update, State.write, before, value, place, bind, Except.bind]
  rfl

theorem executes_lea :
    image.Executes [.lea operand .eax] s (Scratch.Atop { b with eax := address } base) := by
  obtain ⟨disp, index, resolves, located⟩ := h
  have acts : actionOf image.data (.lea operand .eax) =
      some (.lea (.mem disp .ebp index) (.reg .eax)) :=
    actionOf_of_two (.lea operand .eax) rfl rfl (resolves _) rfl
  have place := located s.next atop.ebp atop.edx
  refine Image.executes_one acts fun _ _ => ⟨s.next.setReg .eax address, ?_, rfl, atop.next.set rfl⟩
  simp only [step, State.write, place, bind, Except.bind]
  rfl

end

end Places

end LineBasic
