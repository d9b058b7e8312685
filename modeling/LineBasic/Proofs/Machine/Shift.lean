import LineBasic.Proofs.Machine.State

/-!
Runs of two images that hold the same commands, one of them one place further on.
-/

namespace LineBasic.Machine

variable {image image' : Image} {s : State} {pc : Nat}

def State.withPc (s : State) (pc : Nat) : State :=
  { s with pc }

def Progress.withPc : Progress → Nat → Progress
  | .running s, pc => .running (s.withPc pc)
  | .returned s, pc => .returned (s.withPc pc)

namespace State

@[simp] theorem withPc_withPc (s : State) (pc pc' : Nat) : (s.withPc pc).withPc pc' = s.withPc pc' := rfl

@[simp] theorem withPc_pc (s : State) : s.withPc s.pc = s := rfl

@[simp] theorem pc_withPc (s : State) (pc : Nat) : (s.withPc pc).pc = pc := rfl

@[simp] theorem reg_withPc (s : State) (pc : Nat) (register : Register) :
    (s.withPc pc).reg register = s.reg register := rfl

@[simp] theorem load_withPc (s : State) (pc : Nat) (address : Int32) :
    (s.withPc pc).load address = s.load address := rfl

@[simp] theorem setReg_withPc (s : State) (pc : Nat) (register : Register) (value : Int32) :
    (s.withPc pc).setReg register value = (s.setReg register value).withPc pc := rfl

@[simp] theorem store_withPc (s : State) (pc : Nat) (address value : Int32) :
    (s.withPc pc).store address value = (s.store address value).withPc pc := rfl

@[simp] theorem push_withPc (s : State) (pc : Nat) (value : Int32) :
    (s.withPc pc).push value = (s.push value).withPc pc := rfl

@[simp] theorem address_withPc (s : State) (pc : Nat) (operand : Operand) :
    (s.withPc pc).address operand = s.address operand := by
  unfold address
  rfl

@[simp] theorem read_withPc (s : State) (pc : Nat) (operand : Operand) :
    (s.withPc pc).read operand = s.read operand := by
  unfold read
  simp only [address_withPc, load_withPc, reg_withPc]

theorem write_withPc (s : State) (pc : Nat) (operand : Operand) (value : Int32) :
    (s.withPc pc).write operand value = (s.write operand value).map (·.withPc pc) := by
  cases operand with
  | imm | reg => rfl
  | mem =>
    unfold write
    rw [address_withPc]
    cases s.address _ <;> rfl

theorem pop_def (s : State) :
    s.pop = if stackTop ≤ s.reg .esp then .error .emptyStack
      else (s.load (s.reg .esp)).map fun value => (value, s.setReg .esp (s.reg .esp + 4)) := by
  unfold pop
  split
  next empty =>
    simp only [if_pos empty]
    rfl
  next inside =>
    simp only [if_neg inside]
    cases s.load (s.reg .esp) <;> rfl

theorem pop_withPc (s : State) (pc : Nat) :
    (s.withPc pc).pop = s.pop.map fun popped => (popped.1, popped.2.withPc pc) := by
  rw [pop_def, pop_def, reg_withPc, load_withPc]
  split
  next => rfl
  next => cases s.load (s.reg .esp) <;> rfl

theorem update_withPc (s : State) (pc : Nat) (source target : Operand) (f : Int32 → Int32 → Int32) :
    (s.withPc pc).update source target f = (s.update source target f).map (·.withPc pc) := by
  unfold update
  simp only [read_withPc, write_withPc]
  cases s.read target with
  | error => rfl
  | ok old => cases s.read source <;> rfl

theorem printf_withPc (data : image.data = image'.data) (s : State) (pc : Nat) :
    (s.withPc pc).printf image = (s.printf image').map (·.withPc pc) := by
  unfold printf
  simp only [reg_withPc, load_withPc, Image.string_congr data,
    @format_congr image image' s (s.withPc pc) data rfl]
  cases s.load (s.reg .esp) with
  | error => rfl
  | ok address =>
    simp only [bind, Except.bind]
    cases image'.string address with
    | error => rfl
    | ok text =>
      simp only
      cases s.format image' "" (s.reg .esp + 4) text.toList <;> rfl

theorem scan_withPc (s : State) (pc count : Nat) (address : Int32) :
    (s.withPc pc).scan count address = (s.scan count address).map (·.withPc pc) := by
  induction count generalizing s address with
  | zero => rfl
  | succ count ih =>
    have input : (s.withPc pc).input = s.input := rfl
    rw [scan, scan, input]
    cases s.input with
    | nil => rfl
    | cons word rest =>
      simp only [load_withPc]
      cases Text.int32? word with
      | none => rfl
      | some value =>
        simp only [bind, Except.bind]
        cases s.load address with
        | error => rfl
        | ok place => exact ih ({ s with input := rest }.store place value) (address + 4)

theorem scanf_withPc (data : image.data = image'.data) (s : State) (pc : Nat) :
    (s.withPc pc).scanf image = (s.scanf image').map (·.withPc pc) := by
  unfold scanf
  simp only [reg_withPc, load_withPc, Image.string_congr data, scan_withPc]
  cases s.load (s.reg .esp) with
  | error => rfl
  | ok address =>
    simp only [bind, Except.bind]
    cases image'.string address <;> rfl

end State

theorem call_withPc (data : image.data = image'.data) (s : State) (pc : Nat) (symbol : String) :
    (s.withPc pc).call image symbol = (s.call image' symbol).map (·.withPc pc) := by
  unfold State.call
  split
  next => rfl
  next =>
    rw [State.printf_withPc data]
    cases s.printf image' <;> rfl
  next =>
    rw [State.scanf_withPc data]
    cases s.scanf image' <;> rfl
  next => rfl

/-- The labels that an action can jump to. -/
def Action.goal? : Action → Option String
  | .jmp goal | .jcc _ goal => some goal
  | _ => none

theorem step_withPc {command command' : Command} (data : image.data = image'.data)
    (action : command.action = command'.action) (source : command.source = command'.source)
    (stays : command.action.goal? = none) (s : State) (pc : Nat) :
    step image command (s.withPc pc) = (step image' command' s).map (·.withPc pc) := by
  unfold step
  rw [← action, ← source]
  cases act : command.action with
  | jmp | jcc => simp [act, Action.goal?] at stays
  | push source =>
    simp only [State.read_withPc]
    cases s.read source <;> rfl
  | pop target =>
    simp only [State.pop_withPc]
    cases s.pop with
    | error => rfl
    | ok popped =>
      simp only [Except.map, bind, Except.bind, State.write_withPc]
      cases popped.2.write target popped.1 <;> rfl
  | mov source target =>
    simp only [State.read_withPc]
    cases s.read source with
    | error => rfl
    | ok value =>
      simp only [bind, Except.bind, State.write_withPc]
      cases s.write target value <;> rfl
  | lea source target =>
    simp only [State.address_withPc]
    cases s.address source with
    | error => rfl
    | ok value =>
      simp only [bind, Except.bind, State.write_withPc]
      cases s.write target value <;> rfl
  | add source target | sub source target | imul source target =>
    simp only [State.update_withPc]
    cases s.update source target _ <;> rfl
  | dec target =>
    simp only [State.read_withPc]
    cases s.read target with
    | error => rfl
    | ok value =>
      simp only [bind, Except.bind, State.write_withPc]
      cases s.write target (value - 1) <;> rfl
  | cltd => rfl
  | idiv divisor =>
    simp only [State.read_withPc]
    cases s.read divisor with
    | error => rfl
    | ok value =>
      simp only [bind, Except.bind]
      split <;> rfl
  | cmp source target =>
    simp only [State.read_withPc]
    cases s.read target with
    | error => rfl
    | ok value => cases s.read source <;> rfl
  | call symbol =>
    simp only [call_withPc data]
    cases s.call image' symbol <;> rfl
  | leave =>
    simp only [State.reg_withPc, State.setReg_withPc, State.pop_withPc]
    cases (s.setReg .esp (s.reg .ebp)).pop <;> rfl
  | ret =>
    simp only [State.pop_withPc]
    cases s.pop with
    | error => rfl
    | ok popped =>
      simp only [Except.map, bind, Except.bind]
      split <;> rfl
  | unsupported => rfl

theorem withPc_of_step {command : Command} {progress : Progress}
    (stays : command.action.goal? = none) (h : step image command s = .ok progress) :
    progress.withPc s.pc = progress := by
  have same := @step_withPc image image command command rfl rfl rfl stays s s.pc
  rw [State.withPc_pc, h] at same
  exact (Except.ok.inj same).symm

def State.shift (s : State) : State :=
  s.withPc (s.pc + 1)

def Progress.shift : Progress → Progress
  | .running s => .running s.shift
  | .returned s => .returned s.shift

/-- Commands that are the same up to the names that targets have for a library function. -/
inductive Command.Alike (target target' : Target) : Command → Command → Prop where
  | same (command : Command) : Alike target target' command command
  | call {function source source' : String} : function = "printf" ∨ function = "scanf" →
      Alike target target' ⟨.call (target.symbol function), source⟩
        ⟨.call (target'.symbol function), source'⟩

theorem call_symbol {function : String} (h : function = "printf" ∨ function = "scanf")
    (target target' : Target) (image : Image) (s : State) :
    s.call image (target.symbol function) = s.call image (target'.symbol function) := by
  rcases h with rfl | rfl
  · rw [State.call_printf, State.call_printf]
  · rw [State.call_scanf, State.call_scanf]

theorem step_alike {target target' : Target} {command command' : Command}
    (h : command.Alike target target' command') (image : Image) (s : State) :
    step image command s = step image command' s := by
  cases h with
  | same => rfl
  | call known =>
    unfold step
    simp only [call_symbol known target target']

/-- From the command `first` of the second image on, the first one holds the same commands one place
further on, and labels that they jump to lead there. -/
structure Shifted (target target' : Target) (image image' : Image) (first : Nat) : Prop where
  data : image.data = image'.data
  commands : ∀ pc, first ≤ pc →
    Option.Rel (Command.Alike target target') image.code[pc + 1]? image'.code[pc]?
  goals : ∀ pc command goal, first ≤ pc → image'.code[pc]? = some command →
    command.action.goal? = some goal → ∃ place, first ≤ place ∧
      image'.labels.lookup goal = some place ∧ image.labels.lookup goal = some (place + 1)

namespace Shifted

variable {target target' : Target} {first : Nat}

theorem jump (h : Shifted target target' image image' first) {command : Command} {goal : String}
    (inside : first ≤ pc) (found : image'.code[pc]? = some command)
    (jumps : command.action.goal? = some goal) (s : State) :
    ∃ place, first ≤ place ∧ s.jump image' goal = .ok (s.withPc place) ∧
      s.shift.jump image goal = .ok (s.withPc place).shift := by
  obtain ⟨place, after, leads, leads'⟩ := h.goals pc command goal inside found jumps
  refine ⟨place, after, ?_, ?_⟩
  · rw [State.jump, leads]
    rfl
  · rw [State.jump, leads']
    rfl

theorem step (h : Shifted target target' image image' first) {command command' : Command}
    (inside : first ≤ pc) (found : image'.code[pc]? = some command')
    (alike : command.Alike target target' command') {s : State} (after : first ≤ s.pc) :
    step image command s.shift = (step image' command' s).map Progress.shift ∧
      ∀ s', step image' command' s = .ok (.running s') → first ≤ s'.pc := by
  rw [step_alike alike]
  cases jumps : command'.action.goal? with
  | none =>
    have moved : Machine.step image command' s.shift =
        (Machine.step image' command' s).map (·.withPc (s.pc + 1)) :=
      step_withPc h.data rfl rfl jumps s (s.pc + 1)
    have stays (progress : Progress) (ends : Machine.step image' command' s = .ok progress) :
        progress.withPc s.pc = progress := withPc_of_step jumps ends
    rw [moved]
    cases ends : Machine.step image' command' s with
    | error => exact ⟨rfl, fun s' eq => by cases eq⟩
    | ok progress =>
      cases progress with
      | running t =>
        have same : t.withPc s.pc = t := Progress.running.inj (stays _ ends)
        have pc : t.pc = s.pc := by rw [← same, State.pc_withPc]
        refine ⟨?_, fun s' eq => ?_⟩
        · show Except.ok (Progress.running (t.withPc (s.pc + 1))) = _
          rw [← pc]
          rfl
        · cases eq
          omega
      | returned t =>
        have same : t.withPc s.pc = t := Progress.returned.inj (stays _ ends)
        have pc : t.pc = s.pc := by rw [← same, State.pc_withPc]
        refine ⟨?_, fun s' eq => by cases eq⟩
        show Except.ok (Progress.returned (t.withPc (s.pc + 1))) = _
        rw [← pc]
        rfl
  | some goal =>
    obtain ⟨place, later, leads, leads'⟩ := h.jump inside found jumps s
    unfold Machine.step
    cases action : command'.action with
    | jmp other =>
      rw [action] at jumps
      cases jumps
      simp only [leads, leads']
      exact ⟨rfl, fun s' eq => by cases eq; exact later⟩
    | jcc condition other =>
      rw [action] at jumps
      cases jumps
      have holds : s.shift.holds condition = s.holds condition := rfl
      simp only [holds]
      split
      next =>
        simp only [leads, leads']
        exact ⟨rfl, fun s' eq => by cases eq; exact later⟩
      next => exact ⟨rfl, fun s' eq => by cases eq; exact after⟩
    | _ =>
      rw [action] at jumps
      cases jumps

theorem runFrom (h : Shifted target target' image image' first) (limit steps : Nat) {s : State}
    (inside : first ≤ s.pc) :
    runFrom image limit (steps + 1) s.shift =
      (runFrom image' limit steps s).map fun ending => (ending.1.shift, ending.2 + 1) := by
  induction limit generalizing steps s with
  | zero => rfl
  | succ limit ih =>
    have commands := h.commands s.pc inside
    have pc : s.shift.pc = s.pc + 1 := rfl
    rw [Machine.runFrom, Machine.runFrom, pc]
    cases found' : image'.code[s.pc]? with
    | none =>
      rw [found'] at commands
      cases found : image.code[s.pc + 1]? with
      | none => rfl
      | some command =>
        rw [found] at commands
        cases commands
    | some command' =>
      rw [found'] at commands
      cases found : image.code[s.pc + 1]? with
      | none =>
        rw [found] at commands
        cases commands
      | some command =>
        rw [found] at commands
        cases commands with
        | some alike =>
          obtain ⟨same, after⟩ := h.step inside found' alike
            (s := { s with pc := s.pc + 1 }) (Nat.le_succ_of_le inside)
          have shifted : { s.shift with pc := s.pc + 1 + 1 } =
              ({ s with pc := s.pc + 1 } : State).shift := rfl
          simp only [shifted, same]
          cases ends : Machine.step image' command' { s with pc := s.pc + 1 } with
          | error => rfl
          | ok progress =>
            cases progress with
            | running s' => exact ih (steps + 1) (after s' ends)
            | returned => rfl

end Shifted

theorem runFrom_succ {limit steps : Nat}
    (h : ∀ output, runFrom image limit steps s ≠ .error (.stepLimit output)) :
    runFrom image (limit + 1) steps s = runFrom image limit steps s := by
  induction limit generalizing steps s with
  | zero => exact absurd rfl (h s.output)
  | succ limit ih =>
    rw [runFrom] at h ⊢
    rw [runFrom]
    cases found : image.code[s.pc]? with
    | none => rfl
    | some command =>
      simp only [found] at h ⊢
      cases ends : step image command { s with pc := s.pc + 1 } with
      | error => rfl
      | ok progress =>
        cases progress with
        | running s' =>
          simp only [ends] at h
          exact ih h
        | returned => rfl

end LineBasic.Machine
