import LineBasic.Proofs.Compile.LabelIntegrity
import LineBasic.Proofs.Compile.Loading
import LineBasic.Proofs.Lower.Targets
import LineBasic.Proofs.Machine.Shift

/-!
A program behaves alike on both targets.
-/

namespace LineBasic

open List Machine Lower

theorem commands_alike {target target' : Target} {code code' : List Instr}
    (h : CodeAlike target target' code code') (data : List Datum) :
    Forall₂ (Command.Alike target target') (code.filterMap (commandOf data))
      (code'.filterMap (commandOf data)) := by
  refine rel_filterMap (fun instr instr' alike => ?_) h
  cases alike with
  | same =>
    cases commandOf data instr with
    | none => exact .none
    | some command => exact .some (.same command)
  | call known => exact .some (.call known)

theorem count_alike {target target' : Target} {code code' : List Instr}
    (h : CodeAlike target target' code code') :
    (code.filter Instr.isExecuted).length = (code'.filter Instr.isExecuted).length := by
  have executed : CodeAlike target target' (code.filter Instr.isExecuted)
      (code'.filter Instr.isExecuted) := by
    refine rel_filter (fun instr instr' alike => ?_) h
    cases alike <;> rfl
  exact executed.length_eq

theorem label_alike {target target' : Target} {code before after : List Instr} {name : String}
    (h : CodeAlike target target' code (before ++ .label name :: after)) :
    ∃ before' after', code = before' ++ .label name :: after' ∧
      CodeAlike target target' before' before := by
  induction before generalizing code with
  | nil =>
    cases h with
    | @cons instr _ rest _ alike others =>
      cases alike
      exact ⟨[], rest, rfl, .nil⟩
  | cons first before ih =>
    cases h with
    | @cons instr _ rest _ alike others =>
      obtain ⟨before', after', rfl, alike'⟩ := ih others
      exact ⟨instr :: before', after', rfl, .cons alike alike'⟩

theorem rel_getElem? {α : Type} {r : α → α → Prop} {xs ys : List α} (h : Forall₂ r xs ys)
    (i : Nat) : Option.Rel r xs[i]? ys[i]? := by
  induction h generalizing i with
  | nil => exact .none
  | cons first _ ih =>
    cases i with
    | zero => exact .some first
    | succ i => exact ih i

/-- What every program starts with, up to the first call. -/
def opening (size : Nat) : List Instr :=
  [.push (.reg .ebp), .mov (.reg .esp) (.reg .ebp)] ++ grow size

def opened (input : String) (size : Nat) : State :=
  let s := (State.start input 0).push 0
  let s := s.setReg .ebp (s.reg .esp)
  if size = 0 then s.withPc 2
  else (s.setReg .esp (s.reg .esp - Int32.ofNat size)).withPc 3

theorem runFrom_of_step {image : Image} {command : Command} {s s' : State} {limit steps : Nat}
    (found : image.code[s.pc]? = some command)
    (stepped : step image command { s with pc := s.pc + 1 } = .ok (.running s')) :
    runFrom image (limit + 1) steps s = runFrom image limit (steps + 1) s' := by
  rw [runFrom, found]
  simp only [stepped]

theorem runFrom_opening {image : Image} {data : List Datum} {size : Nat} {rest : List Command}
    (code : image.code.toList = (opening size).filterMap (commandOf data) ++ rest) (input : String)
    (limit : Nat) :
    runFrom image (limit + (opened input size).pc) 0 (State.start input 0) =
      runFrom image limit (opened input size).pc (opened input size) := by
  have command (i : Nat) : image.code[i]? = ((opening size).filterMap (commandOf data) ++ rest)[i]? := by
    rw [← code, Array.getElem?_toList]
  unfold opening grow at command
  unfold opened
  split
  next empty =>
    rw [if_pos empty] at command
    exact (runFrom_of_step (command 0) rfl).trans (runFrom_of_step (command 1) rfl)
  next some =>
    rw [if_neg some] at command
    exact ((runFrom_of_step (command 0) rfl).trans (runFrom_of_step (command 1) rfl)).trans
      (runFrom_of_step (command 2) rfl)

theorem pc_opened (input : String) (size : Nat) (data : List Datum) :
    (opened input size).pc = ((opening size).filterMap (commandOf data)).length := by
  unfold opened opening grow
  split <;> rfl

theorem setReg_of_eq {s : State} {register : Register} {value : Int32} (h : s.reg register = value) :
    s.setReg register value = s := by
  subst h
  cases register <;> rfl

theorem call_main (image : Image) (s : State) : s.call image "___main" = .ok (s.setReg .eax 0) := by
  have main : String.ofList ("___main".toList.dropWhile (· == '_')) = "main" := by decide
  rw [State.call, main]
  rfl

theorem runFrom_call {image : Image} {input : String} {size limit : Nat} {source : String}
    (found : image.code[(opened input size).pc]? = some ⟨.call "___main", source⟩) :
    runFrom image (limit + 1) (opened input size).pc (opened input size) =
      runFrom image limit ((opened input size).pc + 1) (opened input size).shift := by
  have zero : (opened input size).shift.reg .eax = 0 := by
    unfold opened
    split <;> rfl
  refine runFrom_of_step found ?_
  show (do return Progress.running (← (opened input size).shift.call image "___main")) = _
  rw [call_main, setReg_of_eq zero]
  rfl

section Images

variable {program : Program} {sourceName : Option String} {table : Array Variable}
  {texts : List String}

def laterCode (target : Target) (table : Array Variable) (program : Program) : List Instr :=
  statementsCode target table none program.root.children ++
    [.mov (.imm 0) (.reg .eax), .leave, .ret]

def earlyCode (target : Target) (sourceName : Option String) (table : Array Variable)
    (program : Program) : List Instr :=
  header target sourceName program.strings.toList ++
    ([.text, .globl (target.symbol "main"), .label (target.symbol "main")] ++
      (opening (frameSize table program.vars) ++
        if target = .mingw then [.call "___main"] else []))

theorem programCode_split (target : Target) (sourceName : Option String) (table : Array Variable)
    (program : Program) : programCode target sourceName table program =
      earlyCode target sourceName table program ++ laterCode target table program := by
  rw [programCode_eq, mainCode, prologue, earlyCode, laterCode, opening]
  simp only [append_assoc]

theorem commandOf_eq_none {data : List Datum} {instr : Instr} (h : instr.isCommand = false) :
    commandOf data instr = none := by
  cases found : actionOf data instr with
  | none => rw [commandOf, found, Option.map_none]
  | some action =>
    rw [isCommand_of_action found] at h
    cases h

theorem commands_early (target : Target) (data : List Datum) :
    (earlyCode target sourceName table program).filterMap (commandOf data) =
      (opening (frameSize table program.vars)).filterMap (commandOf data) ++
        (if target = .mingw then [Instr.call "___main"] else []).filterMap (commandOf data) := by
  have head : (header target sourceName program.strings.toList).filterMap (commandOf data) = [] :=
    filterMap_eq_nil_iff.mpr fun instr mem => commandOf_eq_none (not_command_of_header mem)
  rw [earlyCode, filterMap_append, head, filterMap_append, filterMap_append]
  rfl

theorem code_programImage (target : Target) :
    (programImage target sourceName table program texts).code.toList =
      (opening (frameSize table program.vars)).filterMap (commandOf (dataOf 0 texts)) ++
        (if target = .mingw then [Instr.call "___main"] else []).filterMap
            (commandOf (dataOf 0 texts)) ++
        (laterCode target table program).filterMap (commandOf (dataOf 0 texts)) := by
  rw [← @commands_early program sourceName, ← filterMap_append, ← programCode_split]
  simp [programImage, Image.extend]

theorem code_elf : (programImage .elf sourceName table program texts).code.toList =
    (opening (frameSize table program.vars)).filterMap (commandOf (dataOf 0 texts)) ++
      (laterCode .elf table program).filterMap (commandOf (dataOf 0 texts)) := by
  rw [code_programImage, if_neg (by decide), filterMap_nil, append_nil]

theorem code_mingw : ∃ source, (programImage .mingw sourceName table program texts).code.toList =
    (opening (frameSize table program.vars)).filterMap (commandOf (dataOf 0 texts)) ++
      ⟨.call "___main", source⟩ ::
        (laterCode .mingw table program).filterMap (commandOf (dataOf 0 texts)) := by
  refine ⟨String.ofList (Instr.call "___main").render.toList.tail, ?_⟩
  rw [code_programImage, if_pos rfl, append_assoc]
  rfl

theorem count_early (target : Target) (data : List Datum) :
    ((earlyCode target sourceName table program).filter Instr.isExecuted).length =
      ((opening (frameSize table program.vars)).filterMap (commandOf data)).length +
        if target = .mingw then 1 else 0 := by
  have opens (size : Nat) : commandCount (opening size) =
      ((opening size).filterMap (commandOf data)).length := by
    unfold opening grow
    split <;> rfl
  have main : commandCount [.text, .globl (target.symbol "main"), .label (target.symbol "main")] = 0 :=
    rfl
  rw [← commandCount_eq, earlyCode, commandCount_append, commandCount_header, commandCount_append,
    main, commandCount_append, opens]
  split <;> simp [commandCount, Instr.isCommand, Instr.mnemonic?, Instr.transfer?]

theorem label_of_jump {target : Target} {code : List Instr} (h : program.WellFormed)
    (generated : Generated target sourceName program table code) {instr : Instr} {goal : String}
    (mem : instr ∈ programCode target sourceName table program)
    (jump : instr = .jmp goal ∨ ∃ condition, instr = .jcc condition goal) :
    ∃ before after, laterCode target table program = before ++ .label goal :: after := by
  have found := label_mem_bodyMarks h generated mem jump
  rw [map_fst_bodyMarks, append_assoc, mem_append] at found
  have later : .label goal ∈ laterCode target table program := by
    rcases found with first | found
    · split at first <;> simp at first
    · rcases mem_append.mp found with statement | last
      · exact mem_append_left _ statement
      · simp at last
  exact append_of_mem later

theorem jump_of_goal {data : List Datum} {instr : Instr} {action : Action} {goal : String}
    (acts : actionOf data instr = some action) (jumps : action.goal? = some goal) :
    instr = .jmp goal ∨ ∃ condition, instr = .jcc condition goal := by
  cases instr with
  | jmp other =>
    cases acts
    cases jumps
    exact .inl rfl
  | jcc condition other =>
    cases condition <;> cases acts <;> cases jumps <;> exact .inr ⟨_, rfl⟩
  | file | «section» | text | globl | ascii | label => cases acts
  | cltd | leave | ret | call =>
    cases acts
    cases jumps
  | push | pop | idiv | dec =>
    obtain ⟨_, _, rfl⟩ := actionOf_one rfl rfl acts
    cases jumps
  | mov | add | sub | cmp | lea | imul =>
    obtain ⟨_, _, _, _, rfl⟩ := actionOf_two rfl rfl acts
    cases jumps

theorem alike_laterCode (h : program.WellFormed) :
    CodeAlike .mingw .elf (laterCode .mingw table program) (laterCode .elf table program) := by
  refine CodeAlike.append (alike_statementsCode (fun node mem last => ?_) none) (.refl _)
  exact alike_statementCode (h.statements node mem) table last

theorem lookup_later {target : Target} {before after : List Instr} {name : String}
    (h : program.WellFormed) (eq : laterCode target table program = before ++ .label name :: after) :
    (programImage target sourceName table program texts).labels.lookup name =
      some (((opening (frameSize table program.vars)).filterMap
        (commandOf (dataOf 0 texts))).length + (if target = .mingw then 1 else 0) +
          (before.filter Instr.isExecuted).length) := by
  refine (lookup_labels (nodup_labelNames h) name _).mpr
    ⟨earlyCode target sourceName table program ++ before, after, ?_, ?_⟩
  · rw [programCode_split, eq, append_assoc]
  · rw [filter_append, length_append, count_early target (dataOf 0 texts)]

theorem shifted_programImage {code : List Instr} (h : program.WellFormed)
    (generated : Generated .elf sourceName program table code) (input : String) :
    Shifted .mingw .elf (programImage .mingw sourceName table program texts)
      (programImage .elf sourceName table program texts)
      (opened input (frameSize table program.vars)).pc := by
  have statements := @alike_laterCode program table h
  have first := pc_opened input (frameSize table program.vars) (dataOf 0 texts)
  obtain ⟨source, code₁⟩ := @code_mingw program sourceName table texts
  have code₂ := @code_elf program sourceName table texts
  refine ⟨rfl, fun pc inside => ?_, fun pc command goal inside found jumps => ?_⟩
  · have alike := rel_getElem? (commands_alike statements (dataOf 0 texts))
      (pc - (opened input (frameSize table program.vars)).pc)
    have next : pc + 1 - (opened input (frameSize table program.vars)).pc =
        pc - (opened input (frameSize table program.vars)).pc + 1 := by omega
    rw [← Array.getElem?_toList, ← Array.getElem?_toList, code₁, code₂,
      getElem?_append_right (by omega), getElem?_append_right (by omega), ← first, next,
      getElem?_cons_succ]
    exact alike
  · rw [← Array.getElem?_toList, code₂, getElem?_append_right (by omega)] at found
    obtain ⟨instr, mem, made⟩ := mem_filterMap.mp (mem_of_getElem? found)
    obtain ⟨action, acts, rfl⟩ := Option.map_eq_some_iff.mp made
    have inCode : instr ∈ programCode .elf sourceName table program := by
      rw [programCode_split]
      exact mem_append_right _ mem
    obtain ⟨before, after, eq⟩ := label_of_jump h generated inCode (jump_of_goal acts jumps)
    rw [eq] at statements
    obtain ⟨before', after', eq', alike⟩ := label_alike statements
    refine ⟨_, ?_, lookup_later h eq, ?_⟩
    · rw [first]
      exact Nat.le_trans (Nat.le_add_right ..) (Nat.le_add_right ..)
    · rw [lookup_later h eq', count_alike alike, if_pos rfl, if_neg (by decide)]
      congr 1
      omega

end Images

/-- Two runs that end alike: with the same output and exit code, the first after one more step, or
with the same fault. A run that is cut off says nothing about the other. -/
inductive RunsAlike : Except Machine.Fault Run → Except Machine.Fault Run → Prop where
  | returned (output : String) (exitCode : Int32) (steps : Nat) :
      RunsAlike (.ok ⟨output, exitCode, steps + 1⟩) (.ok ⟨output, exitCode, steps⟩)
  | failed (fault : Machine.Fault) : RunsAlike (.error fault) (.error fault)
  | cutOff (output : String) (other : Except Machine.Fault Run) :
      RunsAlike (.error (.run (.stepLimit output))) other

section Runs

variable {image : Image} {input : String}

theorem run_of_fault {fault : RunFault} (entry : image.entry? = some 0)
    (ends : runFrom image stepLimit 0 (State.start input 0) = .error fault) :
    image.run input = .error fault := by
  rw [Image.run, entry]
  simp only [ends]
  rfl

theorem run_of_ending {s : State} {steps : Nat} (entry : image.entry? = some 0)
    (ends : runFrom image stepLimit 0 (State.start input 0) = .ok (s, steps)) :
    image.run input = if s.reg .esp ≠ stackTop then .error (.unbalanced (s.reg .esp))
      else .ok ⟨s.output, s.reg .eax, steps⟩ := by
  rw [Image.run, entry]
  simp only [ends, bind, Except.bind]
  split <;> rfl

/-- Runs end alike if one is the other after an opening and one more step. -/
theorem alike_of_shifted {image' : Image} {s : State} {limit steps : Nat}
    (entry : image.entry? = some 0) (entry' : image'.entry? = some 0)
    (run : runFrom image stepLimit 0 (State.start input 0) =
      (runFrom image' limit steps s).map fun ending => (ending.1.shift, ending.2 + 1))
    (run' : runFrom image' stepLimit 0 (State.start input 0) = runFrom image' (limit + 1) steps s) :
    RunsAlike ((image.run input).mapError Machine.Fault.run)
      ((image'.run input).mapError Machine.Fault.run) := by
  cases ends : runFrom image' limit steps s with
  | error fault =>
    rw [ends] at run
    rw [run_of_fault entry run]
    by_cases cut : ∃ output, fault = .stepLimit output
    · obtain ⟨output, rfl⟩ := cut
      exact .cutOff output _
    · rw [runFrom_succ (by rw [ends]; exact fun output eq => cut ⟨output, Except.error.inj eq⟩),
        ends] at run'
      rw [run_of_fault entry' run']
      exact .failed _
  | ok ending =>
    rw [ends] at run
    rw [runFrom_succ (by rw [ends]; exact fun output eq => by cases eq), ends] at run'
    have esp : ending.1.shift.reg .esp = ending.1.reg .esp := rfl
    rw [run_of_ending entry run, run_of_ending entry' run', esp]
    split
    next => exact .failed _
    next => exact .returned ending.1.output (ending.1.reg .eax) ending.2

variable {program : Program} {sourceName : Option String} {table : Array Variable}
  {texts : List String}

theorem runs_alike {code : List Instr} (h : program.WellFormed) (decoded : program.texts = .ok texts)
    (generated : Generated .elf sourceName program table code) (input : String) :
    RunsAlike (((programImage .mingw sourceName table program texts).run input).mapError Machine.Fault.run)
      (((programImage .elf sourceName table program texts).run input).mapError Machine.Fault.run) := by
  have entry (target : Target) := (@loaded_programImage program target sourceName table texts h
    decoded).entry
  obtain ⟨source, code₁⟩ := @code_mingw program sourceName table texts
  have code₂ := @code_elf program sourceName table texts
  have first := pc_opened input (frameSize table program.vars) (dataOf 0 texts)
  -- the steps that are left after the opening and the call
  obtain ⟨limit, all⟩ : ∃ limit,
      stepLimit = limit + 1 + (opened input (frameSize table program.vars)).pc := by
    have few : (opened input (frameSize table program.vars)).pc ≤ 3 := by
      unfold opened
      split
      next => exact Nat.le_succ 2
      next => exact Nat.le_refl 3
    exact ⟨999999 - (opened input (frameSize table program.vars)).pc, by unfold stepLimit; omega⟩
  have called : (programImage .mingw sourceName table program
      texts).code[(opened input (frameSize table program.vars)).pc]? =
        some ⟨.call "___main", source⟩ := by
    rw [← Array.getElem?_toList, code₁, first, getElem?_append_right (Nat.le_refl _),
      Nat.sub_self]
    rfl
  refine @alike_of_shifted _ input _ (opened input (frameSize table program.vars)) limit
    (opened input (frameSize table program.vars)).pc (entry .mingw) (entry .elf) ?_ ?_
  · rw [all, runFrom_opening code₁, runFrom_call called]
    exact (shifted_programImage h generated input).runFrom limit _ (Nat.le_refl _)
  · rw [all, runFrom_opening code₂]

end Runs

theorem generate_alike (program : Program) (collect : Bool)
    (sourceName : Option String) :
    (∃ assembly assembly',
      (generate ⟨.mingw, collect, sourceName⟩ program).result = .ok assembly ∧
        (generate ⟨.elf, collect, sourceName⟩ program).result = .ok assembly') ∨
      ∃ ds, (generate ⟨.mingw, collect, sourceName⟩ program).result = .error ds ∧
        (generate ⟨.elf, collect, sourceName⟩ program).result = .error ds := by
  have same := (Generator.compile_alike program .mingw .elf sourceName).1
  unfold generate
  simp only [same]
  split
  next => exact .inl ⟨_, _, rfl, rfl⟩
  next => exact .inr ⟨_, rfl, rfl⟩

/-- For every source, the two targets report the same faults, or both accept it and run alike. -/
theorem targets_alike (source : String) (collect : Bool) (sourceName : Option String)
    (input : String) (named : ∀ name ∈ sourceName, '\n' ∉ name.toList) :
    (∃ ds, (compile source ⟨.mingw, collect, sourceName⟩).result = .error ds ∧
        (compile source ⟨.elf, collect, sourceName⟩).result = .error ds) ∨
      ∃ assembly assembly',
        (compile source ⟨.mingw, collect, sourceName⟩).result = .ok assembly ∧
        (compile source ⟨.elf, collect, sourceName⟩).result = .ok assembly' ∧
        RunsAlike (run assembly input) (run assembly' input) := by
  cases parsed : (parseSource source collect).result with
  | error ds =>
    exact .inl ⟨ds, result_compile_of_faults ⟨.mingw, collect, sourceName⟩ parsed,
      result_compile_of_faults ⟨.elf, collect, sourceName⟩ parsed⟩
  | ok program =>
    have h := wellFormed_of_parseSource parsed
    have result (target : Target) := result_compile_of_parsed ⟨target, collect, sourceName⟩ parsed
    rw [result, result]
    rcases generate_alike program collect sourceName with ⟨assembly, assembly', ok, ok'⟩ | failed
    · refine .inr ⟨assembly, assembly', ok, ok', ?_⟩
      obtain ⟨_, assembled⟩ := @generated_of_compile program source assembly
        ⟨.mingw, collect, sourceName⟩ parsed ((result .mingw).trans ok)
      obtain ⟨generated, assembled'⟩ := @generated_of_compile program source assembly'
        ⟨.elf, collect, sourceName⟩ parsed ((result .elf).trans ok')
      have table : Config.layout ⟨.mingw, collect, sourceName⟩ program =
          Config.layout ⟨.elf, collect, sourceName⟩ program := by
        unfold Config.layout
        exact (Generator.compile_alike program .mingw .elf sourceName).2
      rw [assembled, assembled', table, run, run]
      cases decoded : program.texts with
      | error fault =>
        have unread (target : Target) := load_of_unread
          (@legible_programCode program target sourceName
            (Config.layout ⟨.elf, collect, sourceName⟩ program) h named) (by
              rw [gather_programCode h, decoded]; rfl)
        rw [unread, unread]
        exact .failed _
      | ok texts =>
        rw [load_programCode h named decoded, load_programCode h named decoded]
        exact runs_alike h decoded generated input
    · exact .inl failed

/-- A program that reads a number and fails for some numbers only. -/
theorem targets_alike_division :
    ∃ assembly assembly',
      (compile "10 READ \"%d\", N\n20 PRINT \"%d\\n\", 100 / N"
        ⟨.mingw, false, some "q.bas"⟩).result = .ok assembly ∧
      (compile "10 READ \"%d\", N\n20 PRINT \"%d\\n\", 100 / N"
        ⟨.elf, false, some "q.bas"⟩).result = .ok assembly' ∧
      RunsAlike (run assembly "7") (run assembly' "7") ∧
      RunsAlike (run assembly "0") (run assembly' "0") := by
  generalize hs : "10 READ \"%d\", N\n20 PRINT \"%d\\n\", 100 / N" = source
  have evaluated : ((compile source ⟨.mingw, false, some "q.bas"⟩).result.toOption.map
      fun _ => ()) = some () := by
    subst hs
    decide +kernel
  obtain ⟨text, accepted, _⟩ := exists_ok_of_map evaluated
  have named : ∀ name ∈ some "q.bas", '\n' ∉ name.toList := by
    rintro name ⟨⟩
    decide
  rcases targets_alike source false (some "q.bas") "7" named with ⟨ds, failed, _⟩ |
    ⟨assembly, assembly', ok, ok', alike⟩
  · cases accepted.symm.trans failed
  rcases targets_alike source false (some "q.bas") "0" named with ⟨ds, failed, _⟩ |
    ⟨text, text', same, same', others⟩
  · cases accepted.symm.trans failed
  cases ok.symm.trans same
  cases ok'.symm.trans same'
  exact ⟨assembly, assembly', ok, ok', alike, others⟩

end LineBasic
