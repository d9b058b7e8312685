import LineBasic.Proofs.Compile.Image
import LineBasic.Proofs.Stack.Chain
import LineBasic.Proofs.Stack.Step

/-!
The stack of a compiled program at every state that a run reaches, and what this keeps a run from.
-/

namespace LineBasic

open List Machine Lower

/-- The number of the first command after the prologue. -/
def bodyStart (table : Array Variable) (program : Program) : Nat :=
  commandCount ([.push (.reg .ebp), .mov (.reg .esp) (.reg .ebp)] ++
    grow (frameSize table program.vars))

/-- The mark of a command from the end of the prologue to the release of the frame. -/
def markAt (target : Target) (table : Array Variable) (program : Program) (pc : Nat) :
    Option Mark :=
  if pc < bodyStart table program then none
  else
    (((bodyMarks target table program ++ [(Instr.leave, bodyMark table program)]).filter
      fun step => step.1.isCommand)[pc - bodyStart table program]?).map Prod.snd

/-- The bytes that a jump out of blocks leaves behind. -/
def leaked (marks : Nat → Option Mark) (action : Action) (pc pc' : Nat) : Nat :=
  match action with
  | .jmp _ => (marks pc).elim 0 Mark.reserved - (marks pc').elim 0 Mark.reserved
  | _ => 0

/-- A state that a run reaches by careful steps, with the bytes that jumps have left behind. -/
inductive Reached (image : Image) (table : Array Variable) (marks : Nat → Option Mark)
    (input : String) : Nat → State → Prop
  | start {pc : Nat} : image.entry? = some pc →
      Reached image table marks input 0 (State.start input pc)
  | step {leak : Nat} {s s' : State} {command : Command} :
      Reached image table marks input leak s → image.code[s.pc]? = some command →
      (∀ m ∈ marks s.pc, Careful table image m command.action s) →
      step image command { s with pc := s.pc + 1 } = .ok (.running s') →
      Reached image table marks input (leak + leaked marks command.action s.pc s'.pc) s'

theorem two_le_bodyStart (table : Array Variable) (program : Program) :
    2 ≤ bodyStart table program := by
  rw [bodyStart, commandCount_append]
  exact Nat.le_add_right 2 _

theorem leaked_of_ne {marks : Nat → Option Mark} {action : Action} {pc pc' : Nat}
    (h : ∀ goal, action ≠ .jmp goal) : leaked marks action pc pc' = 0 := by
  unfold leaked
  split
  next goal => exact absurd rfl (h goal)
  next => rfl

section Places

variable {target : Target} {table : Array Variable} {program : Program} {image : Image}
  {leak : Nat} {s : State}

theorem getElem?_filter {α : Type} {p : α → Bool} {before rest : List α} {x : α} (h : p x) :
    ((before ++ x :: rest).filter p)[before.countP p]? = some x := by
  rw [filter_append, filter_cons_of_pos h, countP_eq_length_filter,
    getElem?_append_right (Nat.le_refl _), Nat.sub_self]
  rfl

theorem commandCount_map_fst (steps : List (Instr × Mark)) :
    commandCount (steps.map Prod.fst) = steps.countP (·.1.isCommand) := by
  rw [commandCount, countP_map]
  rfl

theorem markAt_eq {before rest : List (Instr × Mark)} {instr : Instr} {m : Mark}
    (eq : bodyMarks target table program ++ [(.leave, bodyMark table program)] =
      before ++ (instr, m) :: rest) (isCommand : instr.isCommand) :
    markAt target table program (bodyStart table program + commandCount (before.map Prod.fst)) =
      some m := by
  have found := @getElem?_filter (Instr × Mark) (·.1.isCommand) before rest (instr, m) isCommand
  rw [markAt, if_neg (by omega), Nat.add_sub_cancel_left, eq, commandCount_map_fst, found]
  rfl

theorem Chain.skip {all rest : List (Instr × Mark)} {m m' : Mark} (h : Chain table all m rest m')
    (holds : m.Holds leak s) :
    (∃ labels instr k next others, rest = labels ++ (instr, k) :: others ∧
      commandCount (labels.map Prod.fst) = 0 ∧ instr.isCommand ∧
      Storage table k.reserved k.visible ∧ Moves table all k instr next ∧
      Chain table all next others m' ∧ k.Holds leak s ∧ k.reserved = m.reserved) ∨
    (commandCount (rest.map Prod.fst) = 0 ∧ m'.Holds leak s ∧ m'.reserved = m.reserved) := by
  induction h with
  | nil => exact .inr ⟨rfl, holds, rfl⟩
  | @cons m m₁ m₂ instr rest storage moves chain ih =>
    by_cases isCommand : instr.isCommand
    · exact .inl ⟨[], instr, m, m₁, rest, rfl, rfl, isCommand, storage, moves, chain, holds, rfl⟩
    · obtain ⟨name, rfl, rfl⟩ : ∃ name, instr = .label name ∧ m₁ = { m with eax := .value } := by
        cases moves with
        | fits fits =>
          cases fits with
          | label => exact ⟨_, rfl, rfl⟩
          | _ => exact absurd rfl isCommand
        | _ => exact absurd rfl isCommand
      rcases ih (holds.keep rfl rfl rfl) with ⟨labels, instr, k, next, others, eq, count, found⟩ |
        ⟨count, found⟩
      · exact .inl ⟨(.label name, m) :: labels, instr, k, next, others, by rw [eq]; rfl, count, found⟩
      · exact .inr ⟨count, found⟩

/-- An image with the code of a program, which keeps to its marks. -/
structure Arranged (target : Target) (table : Array Variable) (program : Program) (image : Image) :
    Prop where
  entry : image.entry? = some 0
  holds : image.Holds 0 ([.push (.reg .ebp), .mov (.reg .esp) (.reg .ebp)] ++
    grow (frameSize table program.vars) ++ (bodyMarks target table program).map Prod.fst ++
    [.leave, .ret])
  chain : Chain table (bodyMarks target table program) (bodyMark table program)
    (bodyMarks target table program) (bodyMark table program)
  storage : Storage table (bodyMark table program).reserved (bodyMark table program).visible

namespace Arranged

variable (h : Arranged target table program image)
include h

theorem holds_body : image.Holds (bodyStart table program)
    ((bodyMarks target table program).map Prod.fst) := by
  have holds := (Image.holds_append.mp (Image.holds_append.mp h.holds).1).2
  rw [Nat.zero_add] at holds
  exact holds

theorem holds_end : image.Holds (bodyStart table program +
    commandCount ((bodyMarks target table program).map Prod.fst)) [.leave, .ret] := by
  have holds := (Image.holds_append.mp h.holds).2
  rw [Nat.zero_add, commandCount_append] at holds
  exact holds

theorem command_at {before rest : List (Instr × Mark)} {instr : Instr} {m : Mark}
    (eq : bodyMarks target table program = before ++ (instr, m) :: rest)
    (isCommand : instr.isCommand) :
    ∃ command, image.code[bodyStart table program + commandCount (before.map Prod.fst)]? =
      some command ∧ actionOf image.data instr = some command.action := by
  have holds := h.holds_body
  rw [eq, map_append, Image.holds_append] at holds
  exact holds.2.2.1 isCommand

theorem label_at {before rest : List (Instr × Mark)} {name : String} {m : Mark}
    (eq : bodyMarks target table program = before ++ (.label name, m) :: rest) :
    image.labels.lookup name =
      some (bodyStart table program + commandCount (before.map Prod.fst)) := by
  have holds := h.holds_body
  rw [eq, map_append, Image.holds_append] at holds
  exact holds.2.1 name rfl

end Arranged

/-- Where a run is: in the prologue, in the body, or behind the release of the frame. -/
inductive Phase (target : Target) (table : Array Variable) (program : Program) :
    Nat → State → Prop
  | entered {s : State} : s.pc = 0 → s.reg .esp = stackTop - 4 → s.reg .ebp = 0 →
      s.memory[stackTop - 4]? = some returnSentinel → Phase target table program 0 s
  | saved {s : State} : s.pc = 1 → s.reg .esp = frameBase → s.memory[frameBase]? = some 0 →
      s.memory[frameBase + 4]? = some returnSentinel → Phase target table program 0 s
  | framed {s : State} : s.pc = 2 → frameSize table program.vars ≠ 0 →
      Mark.Holds ⟨0, [], [], .value⟩ 0 s → Phase target table program 0 s
  | body {leak : Nat} {s : State} {before rest : List (Instr × Mark)} {m : Mark} :
      bodyMarks target table program = before ++ rest →
      s.pc = bodyStart table program + commandCount (before.map Prod.fst) →
      Chain table (bodyMarks target table program) m rest (bodyMark table program) →
      m.Holds leak s → Phase target table program leak s
  | released {leak : Nat} {s : State} :
      s.pc = bodyStart table program +
        commandCount ((bodyMarks target table program).map Prod.fst) + 1 →
      s.reg .esp = stackTop - 4 → s.memory[stackTop - 4]? = some returnSentinel →
      Phase target table program leak s

theorem eq_jmp_of_actionOf {data : List Datum} {instr : Instr} {goal : String}
    (h : actionOf data instr = some (.jmp goal)) : instr = .jmp goal := by
  have notOperands (mnemonic : String) (operands : List Machine.Operand) :
      Action.ofOperands mnemonic operands ≠ .jmp goal := by
    unfold Action.ofOperands
    split <;> simp
  unfold actionOf at h
  split at h
  next mnemonic _ =>
    obtain ⟨operands, _, eq⟩ := Option.map_eq_some_iff.mp h
    exact absurd eq (notOperands mnemonic operands)
  next mnemonic name _ transfer =>
    cases instr with
    | jmp =>
      cases transfer
      cases h
      rfl
    | jcc condition =>
      cases transfer
      cases condition <;> cases h
    | call =>
      cases transfer
      cases h
    | _ => cases transfer
  next => cases h

/-- The next step is safe, and it leads to the next stage or to the end. -/
def Proceeds (target : Target) (table : Array Variable) (program : Program) (image : Image)
    (leak : Nat) (s : State) : Prop :=
  ∃ command, image.code[s.pc]? = some command ∧
    ((∀ m, markAt target table program s.pc = some m → Careful table image m command.action s) →
      Safe (step image command { s with pc := s.pc + 1 }) fun
        | .running s' => Phase target table program
            (leak + leaked (markAt target table program) command.action s.pc s'.pc) s'
        | .returned s' => s'.reg .esp = stackTop)

section Proceeds

variable (h : Arranged target table program image)
include h

theorem proceeds_entered (pc : s.pc = 0) (esp : s.reg .esp = stackTop - 4) (ebp : s.reg .ebp = 0)
    (sentinel : s.memory[stackTop - 4]? = some returnSentinel) :
    Proceeds target table program image 0 s := by
  obtain ⟨-, first, -⟩ := h.holds
  obtain ⟨⟨action, text⟩, found, eq⟩ := first rfl
  cases eq
  refine ⟨_, by rw [pc]; exact found, fun _ => ?_⟩
  have below : stackTop - 4 - 4 = frameBase := by decide
  refine Phase.saved (congrArg (· + 1) pc) ?_ ?_ ?_
  · rw [State.reg_push, if_pos rfl]
    show s.reg .esp - 4 = _
    rw [esp, below]
  · rw [State.memory_push, if_pos]
    · exact congrArg some ebp
    · show s.reg .esp - 4 = _
      rw [esp, below]
  · rw [State.memory_push, if_neg]
    · exact sentinel
    · show ¬ s.reg .esp - 4 = _
      rw [esp]
      decide

theorem proceeds_saved (pc : s.pc = 1) (esp : s.reg .esp = frameBase)
    (saved : s.memory[frameBase]? = some 0)
    (sentinel : s.memory[frameBase + 4]? = some returnSentinel) :
    Proceeds target table program image 0 s := by
  obtain ⟨-, -, -, second, -⟩ := h.holds
  obtain ⟨⟨action, text⟩, found, eq⟩ := second rfl
  cases eq
  refine ⟨_, by rw [pc]; exact found, fun _ => ?_⟩
  have top : (s.reg .esp).toInt = frameBase.toInt := by rw [esp]
  by_cases size : frameSize table program.vars = 0
  · have start : bodyStart table program = 2 := by
      rw [bodyStart, grow, if_pos size]
      rfl
    have holds : (bodyMark table program).Holds 0 (State.setReg { s with pc := s.pc + 1 } .ebp
        (s.reg .esp)) := by
      refine ⟨esp, ?_, saved, sentinel, by simp [bodyMark, Mark.enter],
        by simp [bodyMark, Mark.enter]⟩
      show (s.reg .esp).toInt = _
      simp only [bodyMark, Mark.enter, length_nil]
      omega
    exact Phase.body (nil_append _).symm (start ▸ congrArg (· + 1) pc) h.chain holds
  · refine Phase.framed (congrArg (· + 1) pc) size ?_
    refine ⟨esp, ?_, saved, sentinel, by simp, by simp⟩
    show (s.reg .esp).toInt = _
    simp only [length_nil]
    omega

theorem proceeds_framed (pc : s.pc = 2) (size : frameSize table program.vars ≠ 0)
    (holds : Mark.Holds ⟨0, [], [], .value⟩ 0 s) : Proceeds target table program image 0 s := by
  have code := h.holds
  have bound : frameSize table program.vars ≤ maxFrameSize := by
    simpa [bodyMark, Mark.enter] using h.storage.bound
  have start : bodyStart table program = 3 := by
    rw [bodyStart, grow, if_neg size]
    rfl
  rw [grow, if_neg size] at code
  obtain ⟨-, -, -, -, -, third, -⟩ := code
  obtain ⟨command, found, eq⟩ := third rfl
  have careful : Careful table image ⟨0, [], [], .value⟩ command.action s := by
    obtain ⟨action, text⟩ := command
    cases eq
    refine ⟨?_, by simp [InBounds], by simp [HasTargets, Action.isScanf]⟩
    have top := holds.esp
    have base := toInt_frameBase
    have small : frameSize table program.vars < 0x80000000 := by
      unfold maxFrameSize at bound
      omega
    show -0x80000000 ≤ (s.reg .esp).toInt - (Int32.ofNat (frameSize table program.vars)).toInt
    rw [toInt_ofNat_of_lt small, top, base]
    simp only [length_nil]
    omega
  refine ⟨command, by rw [pc]; exact found, fun _ => ?_⟩
  have moves : Moves table [] ⟨0, [], [], .value⟩ _ (bodyMark table program) :=
    .grow rfl (by simpa [Mark.enter] using bound)
  have notJump : ∀ goal, command.action ≠ .jmp goal := by
    obtain ⟨action, text⟩ := command
    cases eq
    simp
  refine (safe_moves moves eq (by simp) storage_nil (s := { s with pc := s.pc + 1 })
    ⟨holds.ebp, holds.esp, holds.saved, holds.sentinel, holds.eax, holds.slots⟩
    ⟨careful.room, careful.bounds, careful.targets⟩).mono fun progress goes => ?_
  cases progress with
  | returned => exact goes.elim
  | running s' =>
    rcases goes with ⟨pc', holds', _⟩ | ⟨goal, k, mem, _⟩
    · show Phase target table program (0 + leaked _ command.action s.pc s'.pc) s'
      rw [leaked_of_ne notJump]
      refine Phase.body (nil_append _).symm ?_ h.chain holds'
      rw [pc', start]
      exact congrArg (· + 1) pc
    · cases mem

theorem mark_of_body {before rest : List (Instr × Mark)} {m : Mark}
    (eq : bodyMarks target table program = before ++ rest)
    (chain : Chain table (bodyMarks target table program) m rest (bodyMark table program))
    (holds : m.Holds leak s) :
    ∃ k, markAt target table program
        (bodyStart table program + commandCount (before.map Prod.fst)) = some k ∧
      k.reserved = m.reserved ∧ k.Holds leak s ∧ Storage table k.reserved k.visible := by
  rcases chain.skip holds with ⟨labels, instr, k, _, others, split, count, isCommand, storage, -, -,
    holds, room⟩ | ⟨count, holds, room⟩
  · have marks : bodyMarks target table program ++ [(Instr.leave, bodyMark table program)] =
        (before ++ labels) ++ (instr, k) :: (others ++ [(.leave, bodyMark table program)]) := by
      simp [eq, split]
    have found := markAt_eq marks isCommand
    rw [map_append, commandCount_append, count, Nat.add_zero] at found
    exact ⟨k, found, room, holds, storage⟩
  · have marks : bodyMarks target table program ++ [(Instr.leave, bodyMark table program)] =
        (before ++ rest) ++ (.leave, bodyMark table program) :: [] := by
      rw [eq]
    have found := markAt_eq marks rfl
    rw [map_append, commandCount_append, count, Nat.add_zero] at found
    exact ⟨_, found, room, holds, h.storage⟩

theorem proceeds_leave (pc : s.pc = bodyStart table program +
      commandCount ((bodyMarks target table program).map Prod.fst))
    (holds : (bodyMark table program).Holds leak s) :
    Proceeds target table program image leak s := by
  obtain ⟨-, first, -⟩ := h.holds_end
  obtain ⟨⟨action, text⟩, found, eq⟩ := first rfl
  cases eq
  refine ⟨_, by rw [pc]; exact found, fun _ => ?_⟩
  have popped := @State.pop_eq (State.setReg { s with pc := s.pc + 1 } .esp (s.reg .ebp)) 0
    (by
      show ¬ stackTop ≤ s.reg .ebp
      rw [holds.ebp]
      decide)
    (by
      show s.memory[s.reg .ebp]? = _
      rw [holds.ebp, holds.saved])
  unfold step
  dsimp only
  erw [popped]
  refine Phase.released (congrArg (· + 1) pc) ?_ ?_
  · show s.reg .ebp + 4 = _
    rw [holds.ebp]
    decide
  · exact holds.sentinel

theorem proceeds_released (pc : s.pc = bodyStart table program +
      commandCount ((bodyMarks target table program).map Prod.fst) + 1)
    (esp : s.reg .esp = stackTop - 4) (sentinel : s.memory[stackTop - 4]? = some returnSentinel) :
    Proceeds target table program image leak s := by
  obtain ⟨-, -, -, second, -⟩ := h.holds_end
  obtain ⟨⟨action, text⟩, found, eq⟩ := second rfl
  cases eq
  refine ⟨_, by rw [pc]; exact found, fun _ => ?_⟩
  have popped := @State.pop_eq { s with pc := s.pc + 1 } returnSentinel
    (by
      show ¬ stackTop ≤ s.reg .esp
      rw [esp]
      decide)
    (by
      show s.memory[s.reg .esp]? = _
      rw [esp, sentinel])
  unfold step
  dsimp only
  rw [popped]
  show s.reg .esp + 4 = _
  rw [esp]
  decide

theorem proceeds_command {before others : List (Instr × Mark)} {instr : Instr} {k next : Mark}
    (eq : bodyMarks target table program = before ++ (instr, k) :: others)
    (pc : s.pc = bodyStart table program + commandCount (before.map Prod.fst))
    (isCommand : instr.isCommand) (storage : Storage table k.reserved k.visible)
    (moves : Moves table (bodyMarks target table program) k instr next)
    (chain : Chain table (bodyMarks target table program) next others (bodyMark table program))
    (holds : k.Holds leak s) : Proceeds target table program image leak s := by
  obtain ⟨command, found, action⟩ := h.command_at eq isCommand
  have mark : markAt target table program s.pc = some k := by
    rw [pc]
    exact @markAt_eq target table program before (others ++ [(.leave, bodyMark table program)]) instr
      k (by simp [eq]) isCommand
  have known : ∀ goal k, (.label goal, k) ∈ bodyMarks target table program →
      ∃ pc, image.labels.lookup goal = some pc := by
    intro goal k mem
    obtain ⟨before, after, split⟩ := append_of_mem mem
    exact ⟨_, h.label_at split⟩
  refine ⟨command, by rw [pc]; exact found, fun careful => ?_⟩
  have careful := careful k mark
  refine (safe_moves moves action known storage (s := { s with pc := s.pc + 1 })
    ⟨holds.ebp, holds.esp, holds.saved, holds.sentinel, holds.eax, holds.slots⟩
    ⟨careful.room, careful.bounds, careful.targets⟩).mono fun progress goes => ?_
  cases progress with
  | returned => exact goes.elim
  | running s' =>
    show Phase target table program (leak + leaked _ command.action s.pc s'.pc) s'
    rcases goes with ⟨pc', holds', notJump⟩ | ⟨goal, k', mem, found', holds', level⟩
    · have notJump : ∀ goal, command.action ≠ .jmp goal := fun goal isJump =>
        notJump goal (eq_jmp_of_actionOf (isJump ▸ action))
      rw [leaked_of_ne notJump]
      refine @Phase.body target table program leak s' (before ++ [(instr, k)]) others next
        (by simp [eq]) ?_ chain holds'
      have counted : commandCount [instr] = 1 := by simp [commandCount, isCommand]
      rw [pc', map_append, commandCount_append]
      show s.pc + 1 = _ + (_ + commandCount [instr])
      rw [pc, counted]
      omega
    · obtain ⟨before', after, split⟩ := append_of_mem mem
      have place := h.label_at split
      rw [found'] at place
      have pc' := Option.some.inj place
      have later := h.chain
      rw [split] at later
      have later := later.drop
      rw [← split] at later
      obtain ⟨k'', mark', room, _⟩ := mark_of_body h split later holds'
      have leaks : leaked (markAt target table program) command.action s.pc s'.pc =
          k.reserved - k'.reserved := by
        rcases level with same | isJump
        · unfold leaked
          split
          next =>
            rw [mark, pc', mark']
            simp [room]
          next => omega
        · rw [isJump] at action
          rw [← Option.some.inj action]
          show (markAt target table program s.pc).elim 0 Mark.reserved -
            (markAt target table program s'.pc).elim 0 Mark.reserved = _
          rw [mark, pc', mark']
          simp [room]
      rw [leaks]
      exact Phase.body split pc' later holds'

theorem proceeds_of_phase (phase : Phase target table program leak s) :
    Proceeds target table program image leak s := by
  cases phase with
  | entered pc esp ebp sentinel => exact proceeds_entered h pc esp ebp sentinel
  | saved pc esp saved sentinel => exact proceeds_saved h pc esp saved sentinel
  | framed pc size holds => exact proceeds_framed h pc size holds
  | @body _ _ before rest m eq pc chain holds =>
    rcases chain.skip holds with ⟨labels, instr, k, next, others, split, count, isCommand, storage,
      moves, chain, holds, _⟩ | ⟨count, holds, _⟩
    · refine @proceeds_command target table program image leak s h (before ++ labels) others instr k
        next (by simp [eq, split]) ?_ isCommand storage moves chain holds
      rw [pc, map_append, commandCount_append, count, Nat.add_zero]
    · refine proceeds_leave h ?_ holds
      rw [pc, eq, map_append, commandCount_append, count, Nat.add_zero]
  | released pc esp sentinel => exact proceeds_released h pc esp sentinel

/-- Where a command has a mark, the mark holds. -/
theorem holds_of_phase {m : Mark} (phase : Phase target table program leak s)
    (mark : markAt target table program s.pc = some m) :
    m.Holds leak s ∧ Storage table m.reserved m.visible := by
  have low := two_le_bodyStart table program
  have unmarked (before : s.pc < bodyStart table program) : m.Holds leak s ∧
      Storage table m.reserved m.visible := by
    rw [markAt, if_pos before] at mark
    cases mark
  cases phase with
  | entered pc => exact unmarked (by omega)
  | saved pc => exact unmarked (by omega)
  | framed pc size =>
    have start : bodyStart table program = 3 := by
      rw [bodyStart, grow, if_neg size]
      rfl
    exact unmarked (by omega)
  | @body _ _ before rest m' eq pc chain holds =>
    obtain ⟨k, found, _, holds, storage⟩ := mark_of_body h eq chain holds
    rw [pc, found] at mark
    cases mark
    exact ⟨holds, storage⟩
  | released pc =>
    rw [markAt, if_neg (by omega)] at mark
    obtain ⟨step, found, _⟩ := Option.map_eq_some_iff.mp mark
    obtain ⟨lt, _⟩ := List.getElem?_eq_some_iff.mp found
    rw [← countP_eq_length_filter, countP_append, ← commandCount_map_fst] at lt
    have one : [(Instr.leave, bodyMark table program)].countP (fun step => step.1.isCommand) = 1 := rfl
    omega

/-- Every state that a run reaches is in one of the phases. -/
theorem phase_of_reached {input : String}
    (reached : Reached image table (markAt target table program) input leak s) :
    Phase target table program leak s := by
  induction reached with
  | start entry =>
    rw [h.entry] at entry
    cases entry
    refine .entered rfl rfl rfl ?_
    rw [State.start, State.memory_push]
    exact if_pos rfl
  | @step leak s s' command _ found careful done ih =>
    obtain ⟨other, found', safe⟩ := proceeds_of_phase h ih
    cases found.symm.trans found'
    have next := safe careful
    rw [done] at next
    exact next

/-- If all steps of a run are careful, the run ends with a balanced stack or a fault of the program. -/
theorem safe_runFrom {input : String} (careful : ∀ leak s command m,
      Reached image table (markAt target table program) input leak s →
      image.code[s.pc]? = some command → markAt target table program s.pc = some m →
      Careful table image m command.action s)
    (reached : Reached image table (markAt target table program) input leak s)
    (limit steps : Nat) :
    Safe (runFrom image limit steps s) fun result => result.1.reg .esp = stackTop := by
  induction limit generalizing leak s steps with
  | zero => exact rfl
  | succ limit ih =>
    obtain ⟨command, found, safe⟩ := proceeds_of_phase h (phase_of_reached h reached)
    have next := safe fun m mark => careful _ s command m reached found mark
    unfold runFrom
    rw [found]
    simp only
    cases done : step image command { s with pc := s.pc + 1 } with
    | error fault =>
      rw [done] at next
      exact next
    | ok progress =>
      rw [done] at next
      cases progress with
      | returned s' => exact next
      | running s' =>
        exact ih (.step reached found (fun m mark => careful _ s command m reached found mark) done) _

end Proceeds

end Places

theorem arranged_of_compile {source assembly : String} {config : Config} {program : Program}
    {image : Image} (parsed : (parseSource source config.collect).result = .ok program)
    (compiled : (compile source config).result = .ok assembly)
    (named : ∀ name ∈ config.sourceName, '\n' ∉ name.toList) (loads : load assembly = .ok image) :
    Arranged config.target (config.layout program) program image := by
  have wellFormed := wellFormed_of_parseSource parsed
  obtain ⟨generated, rfl⟩ := generated_of_compile parsed compiled
  obtain ⟨texts, loaded⟩ := loaded_of_load wellFormed named loads
  have code : [.push (.reg .ebp), .mov (.reg .esp) (.reg .ebp)] ++
      grow (frameSize (config.layout program) program.vars) ++
      (bodyMarks config.target (config.layout program) program).map Prod.fst ++ [.leave, .ret] =
      prologue config.target (frameSize (config.layout program) program.vars) ++
        statementsCode config.target (config.layout program) none program.root.children ++
        [.mov (.imm 0) (.reg .eax), .leave, .ret] := by
    rw [map_fst_bodyMarks, prologue]
    simp only [append_assoc, cons_append, nil_append]
  exact {
    entry := loaded.entry
    holds := code ▸ loaded.holds
    chain := chain_bodyMarks (statements_of_generated wellFormed generated) wellFormed.lands
      (count_pos_of_generated wellFormed generated) generated.laid
    storage := storage_nil.enter generated.laid.1 }

theorem push_keeps {table : Array Variable} {image : Image} {m : Mark} {leak : Nat} {s s' : State}
    {command : Command} {operand : Machine.Operand} (holds : m.Holds leak s)
    (storage : Storage table m.reserved m.visible) (push : command.action = .push operand)
    (careful : Careful table image m command.action s)
    (done : step image command { s with pc := s.pc + 1 } = .ok (.running s'))
    {n address k : Nat} {v : Variable} (mem : n ∈ m.visible) (found : table[n]? = some v)
    (eq : v.address = some address) (lt : k < Shape.count v.dims) :
    s'.memory[cell address k]? = s.memory[cell address k]? := by
  obtain ⟨action, text⟩ := command
  cases push
  have room : -0x80000000 ≤ (s.reg .esp).toInt - 4 := careful.room
  obtain ⟨v', address', found', eq', below, above⟩ := storage.inside n mem
  cases found.symm.trans found'
  cases eq.symm.trans eq'
  have bound := storage.bound
  have place := @toInt_cell address k (by omega) (by omega)
  have top := holds.esp
  have base := toInt_frameBase
  have esp : (s.reg .esp - 4).toInt = (s.reg .esp).toInt - 4 :=
    toInt_sub_ofNat (by omega) (by omega)
  have apart : s.reg .esp - 4 ≠ cell address k := ne_of_toInt (by omega)
  cases read : State.read { s with pc := s.pc + 1 } operand with
  | error fault =>
    rw [step] at done
    simp only [read] at done
    cases done
  | ok value =>
    rw [step] at done
    simp only [read] at done
    cases done
    rw [State.memory_push]
    exact if_neg apart

/-- Takes `n` careful steps, and counts the bytes that jumps leave behind. -/
def trail (image : Image) (table : Array Variable) (marks : Nat → Option Mark) :
    Nat → Nat → State → Option (Nat × State)
  | 0, leak, s => some (leak, s)
  | n + 1, leak, s =>
    match image.code[s.pc]? with
    | none => none
    | some command =>
      if ∀ m ∈ marks s.pc, Careful table image m command.action s then
        match step image command { s with pc := s.pc + 1 } with
        | .ok (.running s') =>
          trail image table marks n (leak + leaked marks command.action s.pc s'.pc) s'
        | _ => none
      else none

theorem reached_of_trail {image : Image} {table : Array Variable} {marks : Nat → Option Mark}
    {input : String} {n leak leak' : Nat} {s s' : State}
    (reached : Reached image table marks input leak s)
    (h : trail image table marks n leak s = some (leak', s')) :
    Reached image table marks input leak' s' := by
  induction n generalizing leak s with
  | zero =>
    cases h
    exact reached
  | succ n ih =>
    rw [trail] at h
    split at h
    next => cases h
    next command found =>
      split at h
      next careful =>
        split at h
        next next done => exact ih (.step reached found careful done) h
        next => cases h
      next => cases h

/-- The marks of the commands that a program is compiled to. -/
def Config.marks (config : Config) (program : Program) : Nat → Option Mark :=
  markAt config.target (config.layout program) program

end LineBasic
