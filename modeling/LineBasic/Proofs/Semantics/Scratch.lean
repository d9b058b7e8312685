import LineBasic.Proofs.Semantics.Execution

/-!
What code computes with between two accesses to variables: temporaries on the stack, three
registers and the outcome of a comparison.
-/

namespace LineBasic

open List Machine

structure Scratch where
  words : List Int32
  eax : Int32
  ecx : Int32
  edx : Int32
  order : Ordering

namespace Scratch

variable {b b' : Scratch}

def get : Scratch → Register → Option Int32
  | b, .eax => some b.eax
  | b, .ecx => some b.ecx
  | b, .edx => some b.edx
  | _, _ => none

def set : Scratch → Register → Int32 → Option Scratch
  | b, .eax, word => some { b with eax := word }
  | b, .ecx, word => some { b with ecx := word }
  | b, .edx, word => some { b with edx := word }
  | _, _, _ => none

def push (b : Scratch) (word : Int32) : Scratch :=
  { b with words := word :: b.words }

def read : Scratch → Operand → Option Int32
  | _, .imm word => some word
  | b, .reg register => b.get register
  | _, _ => none

/-- Divides the double word in `edx` and `eax`, toward zero. -/
def divide (b : Scratch) (divisor : Int32) : Scratch :=
  let dividend := b.edx.toInt * 0x100000000 + b.eax.toUInt32.toNat
  { b with
    eax := Int32.ofInt (dividend.tdiv divisor.toInt)
    edx := Int32.ofInt (dividend.tmod divisor.toInt) }

/-- Writes a function of a register and a source to the register. -/
def update (b : Scratch) (source : Operand) (register : Register)
    (f : Int32 → Int32 → Int32) : Option Scratch := do
  b.set register (f (← b.get register) (← b.read source))

/-- What an instruction does, unless it touches variables, moves the stack or jumps. -/
def step? (b : Scratch) : Instr → Option Scratch
  | .push source => do return b.push (← b.read source)
  | .pop register =>
    match b.words with
    | [] => none
    | word :: words => { b with words }.set register word
  | .mov source (.reg register) => do b.set register (← b.read source)
  | .add source (.reg register) => b.update source register (· + ·)
  | .sub source (.reg register) => b.update source register (· - ·)
  | .imul source register => b.update source register (· * ·)
  | .dec register => do b.set register ((← b.get register) - 1)
  | .cltd => some { b with edx := if b.eax < 0 then -1 else 0 }
  | .idiv register => do
    let divisor ← b.get register
    if divisor = 0 then none else return b.divide divisor
  | .cmp source (.reg register) => do
    return { b with order := compare (← b.get register) (← b.read source) }
  | _ => none

def run? : Scratch → List Instr → Option Scratch
  | b, [] => some b
  | b, instr :: code => do run? (← b.step? instr) code

theorem run?_append (b : Scratch) (code rest : List Instr) :
    b.run? (code ++ rest) = (b.run? code).bind (·.run? rest) := by
  induction code generalizing b with
  | nil => rfl
  | cons instr code ih =>
    rw [cons_append, run?, run?]
    cases b.step? instr with
    | none => rfl
    | some b' => exact ih b'

/-- A state is another one with the scratch in its registers and on top of its stack. -/
structure Atop (b : Scratch) (base s : State) : Prop where
  low : (base.reg .esp).toInt ≤ stackTop.toInt
  esp : (s.reg .esp).toInt = (base.reg .esp).toInt - 4 * b.words.length
  slots : ∀ i word, b.words[i]? = some word →
    s.memory[s.reg .esp + Int32.ofNat (4 * i)]? = some word
  memory : ∀ address : Int32, (base.reg .esp).toInt ≤ address.toInt →
    s.memory[address]? = base.memory[address]?
  ebp : s.reg .ebp = base.reg .ebp
  eax : s.reg .eax = b.eax
  ecx : s.reg .ecx = b.ecx
  edx : s.reg .edx = b.edx
  order : s.order = b.order
  input : s.input = base.input
  output : s.output = base.output

/-- The registers of a state as a scratch without temporaries. -/
def ofState (s : State) : Scratch where
  words := []
  eax := s.reg .eax
  ecx := s.reg .ecx
  edx := s.reg .edx
  order := s.order

theorem atop_ofState {s : State} (low : (s.reg .esp).toInt ≤ stackTop.toInt) :
    (ofState s).Atop s s where
  low := low
  esp := by simp [ofState]
  slots := by simp [ofState]
  memory _ _ := rfl
  ebp := rfl
  eax := rfl
  ecx := rfl
  edx := rfl
  order := rfl
  input := rfl
  output := rfl

namespace Atop

variable {base s s' : State} {word : Int32} {words : List Int32} {register : Register}

section

variable (h : b.Atop base s)

include h

theorem next : b.Atop base s.next :=
  ⟨h.low, h.esp, h.slots, h.memory, h.ebp, h.eax, h.ecx, h.edx, h.order, h.input, h.output⟩

theorem goto (pc : Nat) : b.Atop base { s with pc } :=
  ⟨h.low, h.esp, h.slots, h.memory, h.ebp, h.eax, h.ecx, h.edx, h.order, h.input, h.output⟩

theorem get (found : b.get register = some word) : s.reg register = word := by
  cases register with
  | eax =>
    cases found
    exact h.eax
  | ecx =>
    cases found
    exact h.ecx
  | edx =>
    cases found
    exact h.edx
  | esp | ebp => cases found

theorem set (done : b.set register word = some b') :
    b'.Atop base (s.setReg register word) := by
  have general : register ≠ .esp ∧ register ≠ .ebp := by
    cases register <;> simp [Scratch.set] at done ⊢
  have words : b'.words = b.words := by
    cases register <;> cases done <;> rfl
  have order : b'.order = b.order := by
    cases register <;> cases done <;> rfl
  refine ⟨h.low, ?_, ?_, h.memory, ?_, ?_, ?_, ?_, order ▸ h.order, h.input, h.output⟩
  · rw [State.reg_setReg, if_neg general.1.symm, words]
    exact h.esp
  · rw [State.reg_setReg, if_neg general.1.symm, words]
    exact h.slots
  · rw [State.reg_setReg, if_neg general.2.symm]
    exact h.ebp
  all_goals
    cases register <;> cases done <;> simp [h.eax, h.ecx, h.edx]

theorem read {data : List Datum} {operand : Operand} (found : b.read operand = some word) :
    ∃ resolved, operandOf data operand = some resolved ∧ s.read resolved = .ok word := by
  cases operand with
  | imm value =>
    cases found
    exact ⟨_, rfl, rfl⟩
  | reg register => exact ⟨_, rfl, congrArg Except.ok (h.get found)⟩
  | addr | mem | indexed => cases found

theorem toInt_slot {i : Nat} (lt : i < b.words.length) :
    (s.reg .esp + Int32.ofNat (4 * i)).toInt = (s.reg .esp).toInt + 4 * i := by
  have top := h.esp
  have low := h.low
  have bottom := toInt_stackTop
  have least := Int32.le_toInt (s.reg .esp)
  rw [toInt_add_ofNat] <;> omega

theorem push (room : -0x80000000 ≤ (s.reg .esp).toInt - 4) (word : Int32) :
    (b.push word).Atop base (s.push word) := by
  have top := h.esp
  have low := h.low
  have bottom := toInt_stackTop
  have esp : (s.reg .esp - 4).toInt = (s.reg .esp).toInt - 4 :=
    toInt_sub_ofNat (by omega) (by omega)
  refine ⟨low, ?_, fun i found word' => ?_, fun address le => ?_, h.ebp, h.eax, h.ecx, h.edx, h.order,
    h.input, h.output⟩
  · rw [State.reg_push, if_pos rfl, esp, top]
    simp only [Scratch.push, length_cons]
    omega
  · rw [State.reg_push, if_pos rfl]
    cases i with
    | zero =>
      cases word'
      simp
    | succ i =>
      have inside : b.words[i]? = some found := word'
      have slot := h.toInt_slot (List.getElem?_eq_some_iff.mp inside).1
      have same : s.reg .esp - 4 + Int32.ofNat (4 * (i + 1)) = s.reg .esp + Int32.ofNat (4 * i) := by
        rw [Nat.mul_add, Int32.ofNat_add, show Int32.ofNat (4 * 1) = 4 from rfl]
        grind
      rw [same, State.memory_push, if_neg (ne_of_toInt (by omega)), h.slots i found inside]
  · rw [State.memory_push, if_neg (ne_of_toInt (by omega)), h.memory address le]

theorem pop (eq : b.words = word :: words) :
    s.pop = .ok (word, s.setReg .esp (s.reg .esp + 4)) ∧
      Scratch.Atop { b with words } base (s.setReg .esp (s.reg .esp + 4)) := by
  have top := h.esp
  have low := h.low
  have bottom := toInt_stackTop
  have least := Int32.le_toInt (s.reg .esp)
  rw [eq, length_cons] at top
  have esp : (s.reg .esp + 4).toInt = (s.reg .esp).toInt + 4 :=
    @toInt_add_ofNat _ 4 (by omega) (by omega)
  have inside : ¬ stackTop ≤ s.reg .esp := by
    rw [Int32.le_iff_toInt_le]
    omega
  have found : s.memory[s.reg .esp]? = some word := by
    have slot := h.slots 0 word (by rw [eq]; rfl)
    simpa using slot
  refine ⟨State.pop_eq inside found, low, ?_, fun i word' at_ => ?_, h.memory, h.ebp, h.eax, h.ecx,
    h.edx, h.order, h.input, h.output⟩
  · rw [State.reg_setReg, if_pos rfl, esp, top]
    simp only
    omega
  · have slot := h.slots (i + 1) word' (by rw [eq]; exact at_)
    rw [State.reg_setReg, if_pos rfl, slot_succ]
    exact slot

theorem release :
    Scratch.Atop { b with words := [] } base
      (s.setReg .esp (s.reg .esp + Int32.ofNat (4 * b.words.length))) := by
  have top := h.esp
  have low := h.low
  have bottom := toInt_stackTop
  have least := Int32.le_toInt (s.reg .esp)
  have greatest := Int32.le_toInt (base.reg .esp)
  refine ⟨low, ?_, by simp, h.memory, h.ebp, h.eax, h.ecx, h.edx, h.order, h.input, h.output⟩
  rw [State.reg_setReg, if_pos rfl, toInt_add_ofNat (by omega) (by omega), top]
  simp only [length_nil]
  omega

theorem divide {divisor : Int32} :
    (b.divide divisor).Atop base (s.divide divisor) := by
  unfold State.divide
  rw [h.edx, h.eax]
  exact (h.set rfl).set rfl

theorem store {address : Int32} (above : (base.reg .esp).toInt ≤ address.toInt)
    (word : Int32) : b.Atop (base.store address word) (s.store address word) := by
  have top := h.esp
  refine ⟨h.low, top, fun i word' found => ?_, fun other le => ?_, h.ebp, h.eax, h.ecx, h.edx, h.order,
    h.input, h.output⟩
  · have lt := (List.getElem?_eq_some_iff.mp found).1
    have slot := h.toInt_slot lt
    rw [State.memory_store, State.reg_store, if_neg (ne_of_toInt (by omega))]
    exact h.slots i word' found
  · rw [State.memory_store, State.memory_store, h.memory other le]

end

end Atop

section Machine

variable {image : Image} {full : Prop} {base s : State} {code : List Instr} {instr : Instr}

theorem completes_push {source : Operand} {resolved : Machine.Operand} {word : Int32}
    (room : full ∨ -0x80000000 ≤ (s.reg .esp).toInt - 4) (h : b.Atop base s)
    (found : operandOf image.data source = some resolved) (read : s.next.read resolved = .ok word) :
    image.Completes full [.push source] s ((b.push word).Atop base) := by
  have acts : actionOf image.data (.push source) = some (.push resolved) :=
    actionOf_of_one (.push source) rfl rfl found
  have room : full ∨ (Action.push resolved).HasRoom s := room
  refine Image.completes_one room acts fun fits _ => ⟨s.next.push word, ?_, rfl, h.next.push fits word⟩
  simp only [step, read]
  rfl

theorem completes_pop {register : Register} {word : Int32} {words : List Int32} (h : b.Atop base s)
    (eq : b.words = word :: words) (done : Scratch.set { b with words } register word = some b') :
    image.Completes full [.pop register] s (b'.Atop base) := by
  obtain ⟨popped, rest⟩ := h.next.pop eq
  refine Image.completes_one (.inr (Action.hasRoom_of_growth rfl)) rfl fun _ _ => ⟨_, ?_, rfl, rest.set done⟩
  simp only [step, popped]
  rfl

theorem completes_mov {source : Operand} {register : Register} {word : Int32}
    (h : b.Atop base s) (read : b.read source = some word) (done : b.set register word = some b') :
    image.Completes full [.mov source (.reg register)] s (b'.Atop base) := by
  obtain ⟨resolved, found, value⟩ := @Atop.read b base s.next word h.next image.data source read
  have acts : actionOf image.data (.mov source (.reg register)) = some (.mov resolved (.reg register)) :=
    actionOf_of_two (.mov source (.reg register)) rfl rfl found rfl
  refine Image.completes_one (.inr (Action.hasRoom_of_growth rfl)) acts
    fun _ _ => ⟨_, ?_, rfl, h.next.set done⟩
  simp only [step, value]
  rfl

theorem Atop.update {data : List Datum} {source : Operand} {register : Register}
    {f : Int32 → Int32 → Int32} (h : b.Atop base s)
    (updated : b.update source register f = some b') :
    ∃ resolved s', operandOf data source = some resolved ∧
      s.update resolved (.reg register) f = .ok s' ∧ s'.pc = s.pc ∧ b'.Atop base s' := by
  obtain ⟨old, before, updated⟩ := Option.bind_eq_some_iff.mp updated
  obtain ⟨word, read, done⟩ := Option.bind_eq_some_iff.mp updated
  obtain ⟨resolved, found, value⟩ := @Atop.read b base s word h data source read
  have target : s.read (.reg register) = .ok old := congrArg Except.ok (h.get before)
  refine ⟨resolved, s.setReg register (f old word), found, ?_, rfl, h.set done⟩
  rw [State.update, target]
  simp only [bind, Except.bind, value]
  rfl

theorem completes_update {source : Operand} {register : Register}
    {f : Int32 → Int32 → Int32} {action : Machine.Operand → Action} (h : b.Atop base s)
    (updated : b.update source register f = some b')
    (acts : ∀ resolved, operandOf image.data source = some resolved →
      actionOf image.data instr = some (action resolved))
    (steps : ∀ resolved text s, step image ⟨action resolved, text⟩ s = (do
      return .running (← s.update resolved (.reg register) f)))
    (still : ∀ resolved, (action resolved).growth = 0) :
    image.Completes full [instr] s (b'.Atop base) := by
  obtain ⟨resolved, s', found, done, pc, atop⟩ := @Atop.update b b' base s.next image.data source
    register f h.next updated
  refine Image.completes_one (.inr (Action.hasRoom_of_growth (still resolved))) (acts resolved found)
    fun _ text => ⟨s', ?_, pc, atop⟩
  rw [steps, done]
  rfl

theorem completes_cmp {source target : Operand} {resolved : Machine.Operand} {old word : Int32}
    (h : b.Atop base s) (found : operandOf image.data target = some resolved)
    (value : s.next.read resolved = .ok old) (read : b.read source = some word) :
    image.Completes full [.cmp source target] s
      (Scratch.Atop { b with order := compare old word } base) := by
  obtain ⟨resolved', found', value'⟩ := @Atop.read b base s.next word h.next image.data source read
  have acts : actionOf image.data (.cmp source target) = some (.cmp resolved' resolved) :=
    actionOf_of_two (.cmp source target) rfl rfl found' found
  refine Image.completes_one (.inr (Action.hasRoom_of_growth rfl)) acts
    fun _ _ => ⟨{ s.next with order := compare old word }, ?_, rfl, ?_⟩
  · simp only [step, value, value', bind, Except.bind]
    rfl
  · exact ⟨h.low, h.esp, h.slots, h.memory, h.ebp, h.eax, h.ecx, h.edx, rfl, h.input, h.output⟩

/-- The machine does with an instruction what is done with it on the scratch. -/
theorem completes_step (room : full ∨ ∀ source, instr ≠ .push source) (h : b.Atop base s)
    (done : b.step? instr = some b') : image.Completes full [instr] s (b'.Atop base) := by
  cases instr with
  | push source =>
    obtain ⟨word, read, done⟩ := Option.bind_eq_some_iff.mp done
    cases done
    obtain ⟨resolved, found, value⟩ := @Atop.read b base s.next word h.next image.data source read
    exact completes_push (room.imp_right fun none => absurd rfl (none source)) h found value
  | pop register =>
    simp only [step?] at done
    split at done
    next => cases done
    next word words eq => exact completes_pop h eq done
  | mov source target =>
    cases target with
    | reg register =>
      obtain ⟨word, read, done⟩ := Option.bind_eq_some_iff.mp done
      exact completes_mov h read done
    | _ => cases done
  | add source target =>
    cases target with
    | reg register =>
      exact completes_update h done
        (fun _ found => actionOf_of_two (.add source (.reg register)) rfl rfl found rfl)
        (fun _ _ _ => rfl) fun _ => rfl
    | _ => cases done
  | sub source target =>
    cases target with
    | reg register =>
      have general : register ≠ .esp := by
        rintro rfl
        cases done
      exact completes_update h done
        (fun _ found => actionOf_of_two (.sub source (.reg register)) rfl rfl found rfl)
        (fun _ _ _ => rfl) fun _ => Action.growth_sub general
    | _ => cases done
  | imul source register =>
    exact completes_update h done
      (fun _ found => actionOf_of_two (.imul source register) rfl rfl found rfl) (fun _ _ _ => rfl)
      fun _ => rfl
  | dec register =>
    obtain ⟨word, before, done⟩ := Option.bind_eq_some_iff.mp done
    refine Image.completes_one (.inr (Action.hasRoom_of_growth rfl)) rfl
      fun _ _ => ⟨_, ?_, rfl, h.next.set done⟩
    have value : s.next.reg register = word := h.next.get before
    rw [← value]
    rfl
  | cltd =>
    have eax := h.next.eax
    refine Image.completes_one (.inr (Action.hasRoom_of_growth rfl)) rfl fun _ _ => ⟨_, rfl, rfl, ?_⟩
    rw [eax]
    exact h.next.set done
  | idiv register =>
    obtain ⟨divisor, before, done⟩ := Option.bind_eq_some_iff.mp done
    split at done
    next => cases done
    next nonzero =>
      cases done
      have value : s.next.read (.reg register) = .ok divisor := congrArg Except.ok (h.next.get before)
      have acts : actionOf image.data (.idiv register) = some (.idiv (.reg register)) := rfl
      refine Image.completes_one (.inr (Action.hasRoom_of_growth rfl)) acts
        fun _ _ => ⟨s.next.divide divisor, ?_, rfl, h.next.divide⟩
      simp only [step, value, bind, Except.bind, nonzero, if_false]
      rfl
  | cmp source target =>
    cases target with
    | reg register =>
      obtain ⟨old, before, done⟩ := Option.bind_eq_some_iff.mp done
      obtain ⟨word, read, done⟩ := Option.bind_eq_some_iff.mp done
      cases done
      exact completes_cmp h rfl (congrArg Except.ok (h.next.get before)) read
    | _ => cases done
  | _ => cases done

theorem completes_run (room : full ∨ ∀ source, .push source ∉ code) (h : b.Atop base s)
    (done : b.run? code = some b') : image.Completes full code s (b'.Atop base) := by
  induction code generalizing b s with
  | nil =>
    cases done
    exact Image.completes_nil h
  | cons instr code ih =>
    obtain ⟨b₁, first, rest⟩ := Option.bind_eq_some_iff.mp done
    have here : full ∨ ∀ source, instr ≠ .push source := room.imp_right fun none source eq =>
      none source (eq ▸ mem_cons_self ..)
    have after : full ∨ ∀ source, .push source ∉ code := room.imp_right fun none source mem =>
      none source (mem_cons_of_mem _ mem)
    exact (completes_step here h first).append fun s' atop => ih after atop rest

theorem executes_run (h : b.Atop base s) (done : b.run? code = some b') :
    image.Executes code s (b'.Atop base) :=
  completes_run (.inl trivial) h done

end Machine

end Scratch

end LineBasic
