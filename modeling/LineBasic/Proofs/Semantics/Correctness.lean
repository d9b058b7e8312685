import LineBasic.Proofs.Compile.Targets
import LineBasic.Proofs.Semantics.Control

/-!
A compiled program does on the machine what its tree means.
-/

namespace LineBasic

open List Machine Lower

variable {program : Program} {target : Target} {sourceName : Option String} {table : Array Variable}
  {texts : List String} {image : Image} {code : List Instr} {w : World} {s : State} {input : String}

section Images

theorem sameShapes_of_generated (generated : Generated target sourceName program table code) :
    SameShapes program.symbols table := by
  intro n
  by_cases mem : n ∈ program.root.owned
  · obtain ⟨v, address, found, _, placed⟩ := generated.placed.placed n mem
    rw [found, placed]
    rfl
  · rw [generated.placed.kept n mem]

theorem string_of_texts {i : Nat} {literal : Literal} {cs : List Char}
    (decoded : program.texts = .ok texts) (data : image.data = dataOf 0 texts)
    (few : texts.length ≤ 0x1000000) (found : program.strings[i]? = some literal)
    (characters : literal.characters? = some cs) :
    ∃ datum, image.data.find? (·.label == textLabel i) = some datum ∧
      image.string datum.address = .ok (String.ofList cs) := by
  have each := forall₂_of_mapM decoded
  have bound : i < program.strings.toList.length := by
    simpa using (Array.getElem?_eq_some_iff.mp found).1
  have inside : i < texts.length := each.length_eq ▸ bound
  have read : decodeContent program.strings.toList[i].content = .ok texts[i] := each.get bound inside
  have same : program.strings.toList[i] = literal := by
    simpa using (Array.getElem?_eq_some_iff.mp found).2
  have unescaped : unescape literal.content.toList = .ok cs := eq_ok_of_toOption characters
  rw [same, decodeContent, unescaped] at read
  have text : texts[i]? = some (String.ofList cs) := by
    rw [getElem?_eq_getElem inside]
    exact congrArg some (Except.ok.inj read).symm
  refine ⟨datum i (String.ofList cs), ?_, ?_⟩
  · rw [data, find?_label text]
  · rw [Image.string, data, find?_address text few]
    rfl

theorem suits_programImage (h : program.WellFormed)
    (generated : Generated target sourceName program table code)
    (decoded : program.texts = .ok texts) (few : texts.length ≤ 0x1000000) :
    Suits (programImage target sourceName table program texts) program.symbols table
      program.strings where
  shapes := sameShapes_of_generated generated
  texts _ _ _ found characters := string_of_texts decoded rfl few found characters
  jumps pc command goal found jumps := by
    have commands : (programImage target sourceName table program texts).code.toList =
        (programCode target sourceName table program).filterMap (commandOf (dataOf 0 texts)) := by
      simp [programImage, Image.extend]
    rw [← Array.getElem?_toList, commands] at found
    obtain ⟨instr, mem, made⟩ := mem_filterMap.mp (mem_of_getElem? found)
    obtain ⟨action, acts, rfl⟩ := Option.map_eq_some_iff.mp made
    cases jumps
    obtain ⟨before, after, eq⟩ := label_of_jump h generated mem (jump_of_goal acts rfl)
    exact ⟨_, lookup_later h eq⟩

end Images

section Frame

theorem mirrors_start (image : Image) (table : Array Variable) (input : String) (pc : Nat) :
    Mirrors image table 0 [] ⟨.empty, Text.words input.toList, ""⟩
      (((State.start input pc).push 0).setReg .ebp
        (((State.start input pc).push 0).reg .esp)) := by
  have start : (State.start input pc).reg .esp = stackTop - 4 := rfl
  have pushed : ((State.start input pc).push 0).reg .esp = frameBase := by
    rw [State.reg_push, if_pos rfl, start]
    decide
  refine ⟨pushed, Int.le_of_eq ?_, ?_, ?_, by simp, rfl, rfl⟩
  · rw [State.reg_setReg, if_neg (by decide), pushed]
    rfl
  · rw [State.memory_setReg, State.memory_push, start]
    exact if_pos (by decide)
  · rw [State.memory_setReg, State.memory_push, start, if_neg (by decide), State.start,
      State.memory_push]
    exact if_pos (show stackTop - 4 = frameBase + 4 by decide)

theorem executes_prologue (bound : frameSize table program.vars ≤ maxFrameSize) :
    image.Executes (prologue target (frameSize table program.vars)) (State.start input 0)
      (Mirrors image table (frameSize table program.vars) program.vars
        ⟨Store.empty.forget program.vars, Text.words input.toList, ""⟩) := by
  have saves : image.Executes [.push (.reg .ebp)] (State.start input 0)
      fun s => s = (State.start input 1).push 0 :=
    Image.executes_one rfl fun _ _ => ⟨_, rfl, rfl, rfl⟩
  have begins : image.Executes ([Instr.push (.reg .ebp)] ++ [Instr.mov (.reg .esp) (.reg .ebp)])
      (State.start input 0)
      (Mirrors image table 0 [] ⟨.empty, Text.words input.toList, ""⟩) := by
    refine saves.append fun s eq => ?_
    subst eq
    exact Image.executes_one rfl fun _ _ => ⟨_, rfl, rfl, mirrors_start image table input 2⟩
  refine Image.Completes.append (begins.append fun s mirrors =>
    @executes_grow image table 0 [] program.vars _ s mirrors (by omega)) fun s mirrors => ?_
  rw [Nat.zero_add, append_nil] at mirrors
  split
  next =>
    exact completes_call (call_main image s.next) rfl (mirrors.congr rfl rfl rfl rfl rfl)
  next => exact Image.completes_nil mirrors

/-- A program that is about to return to the system. -/
structure Returns (image : Image) (output : String) (s : State) : Prop where
  command : ∃ source, image.code[s.pc]? = some ⟨.ret, source⟩
  esp : s.reg .esp = stackTop - 4
  sentinel : s.memory[s.reg .esp]? = some returnSentinel
  eax : s.reg .eax = 0
  output : s.output = output

theorem executes_leave {reserved : Nat} {visible : List Nat}
    (mirrors : Mirrors image table reserved visible w s) :
    image.Executes [.leave] s fun s' => s'.reg .esp = stackTop - 4 ∧
      s'.memory[s'.reg .esp]? = some returnSentinel ∧ s'.reg .eax = s.reg .eax ∧
      s'.output = w.output := by
  have inside : ¬ stackTop ≤ (s.next.setReg .esp (s.next.reg .ebp)).reg .esp := by
    rw [State.reg_setReg, if_pos rfl]
    show ¬ stackTop ≤ s.reg .ebp
    rw [mirrors.ebp]
    decide
  have popped := @State.pop_eq (s.next.setReg .esp (s.next.reg .ebp)) 0 inside (by
    show s.memory[s.reg .ebp]? = _
    rw [mirrors.ebp, mirrors.saved])
  have top : s.reg .ebp + 4 = stackTop - 4 := by
    rw [mirrors.ebp]
    decide
  have done (source : String) : step image ⟨.leave, source⟩ s.next = .ok (.running
      (((s.next.setReg .esp (s.next.reg .ebp)).setReg .esp (s.reg .ebp + 4)).setReg .ebp 0)) := by
    simp only [step, popped, bind, Except.bind]
    rfl
  refine Image.executes_one rfl fun _ source =>
    ⟨_, done source, rfl, top, ?_, rfl, mirrors.output⟩
  show s.memory[s.reg .ebp + 4]? = _
  rw [mirrors.ebp, mirrors.sentinel]

theorem arrives_epilogue {reserved : Nat} {visible : List Nat}
    (mirrors : Mirrors image table reserved visible w s)
    (lies : image.Holds s.pc [.mov (.imm 0) (.reg .eax), .leave, .ret]) :
    image.Arrives (Returns image w.output) s := by
  have clears : image.Executes [.mov (.imm 0) (.reg .eax)] s
      fun s' => Mirrors image table reserved visible w s' ∧ s'.reg .eax = 0 :=
    Image.executes_one rfl fun _ _ => ⟨_, rfl, rfl, mirrors.congr rfl rfl rfl rfl rfl, rfl⟩
  have parts : [Instr.mov (.imm 0) (.reg .eax), .leave, .ret] =
      ([Instr.mov (.imm 0) (.reg .eax)] ++ [Instr.leave]) ++ [Instr.ret] := rfl
  rw [parts] at lies
  obtain ⟨lies₁, lies₂⟩ := Image.holds_append.mp lies
  refine ((clears.append fun s₁ ⟨mirrors₁, zero⟩ => (executes_leave mirrors₁).mono
    fun s₂ ⟨esp, sentinel, eax, output⟩ => (⟨esp, sentinel, eax.trans zero, output⟩ :
      s₂.reg .esp = stackTop - 4 ∧ s₂.memory[s₂.reg .esp]? = some returnSentinel ∧
        s₂.reg .eax = 0 ∧ s₂.output = w.output)) lies₁).mono ?_
  rintro s₂ ⟨pc, esp, sentinel, eax, output⟩
  rw [← pc] at lies₂
  obtain ⟨⟨action, source⟩, command, acts⟩ := lies₂.2.1 rfl
  cases acts
  exact ⟨⟨source, command⟩, esp, sentinel, eax, output⟩

theorem Returns.runFrom_eq {output : String} (h : Returns image output s) (limit steps : Nat) :
    ∃ s', runFrom image (limit + 1) steps s = .ok (s', steps + 1) ∧ s'.reg .esp = stackTop ∧
      s'.reg .eax = 0 ∧ s'.output = output := by
  obtain ⟨source, command⟩ := h.command
  have popped := @State.pop_eq s.next returnSentinel
    (by
      show ¬ stackTop ≤ s.reg .esp
      rw [h.esp]
      decide) h.sentinel
  have done : step image ⟨.ret, source⟩ s.next =
      .ok (.returned (s.next.setReg .esp (s.reg .esp + 4))) := by
    simp only [step, popped, bind, Except.bind, if_true]
    rfl
  have done : step image ⟨.ret, source⟩ { s with pc := s.pc + 1 } =
      .ok (.returned (s.next.setReg .esp (s.reg .esp + 4))) := done
  refine ⟨s.next.setReg .esp (s.reg .esp + 4), ?_, ?_, h.eax, h.output⟩
  · rw [runFrom, command]
    simp only [done]
  · show s.reg .esp + 4 = _
    rw [h.esp]
    decide

end Frame

/-- A loaded program whose tree has a meaning comes to its return. -/
theorem arrives_returns {fuel : Nat} (h : program.WellFormed)
    (generated : Generated target sourceName program table code)
    (loaded : Loaded target table program texts image)
    (suits : Suits image program.symbols table program.strings)
    (ran : World.block? program.symbols fuel ⟨.empty, Text.words input.toList, ""⟩ program.root =
      some (w, none)) :
    image.Arrives (Returns image w.output) (State.start input 0) := by
  have storage : Storage table (frameSize table program.vars) program.vars := by
    have entered := storage_nil.enter generated.laid.1
    rw [Nat.zero_add, append_nil] at entered
    exact entered
  have laid : ∀ node ∈ program.root.children, Laid target table (frameSize table program.vars) node := by
    have inside := generated.laid.2
    rw [Nat.zero_add] at inside
    exact inside
  obtain ⟨lies, lies₃⟩ := Image.holds_append.mp loaded.holds
  obtain ⟨lies₁, lies₂⟩ := Image.holds_append.mp lies
  rw [commandCount_append, ← Nat.add_assoc] at lies₃
  refine (executes_prologue storage.bound lies₁).bind fun s₁ ⟨pc₁, mirrors₁⟩ => ?_
  have pc₁ : s₁.pc = 0 + commandCount (prologue target (frameSize table program.vars)) := pc₁
  rw [← pc₁] at lies₂ lies₃
  cases fuel with
  | zero =>
    rw [World.block?] at ran
    cases ran
  | succ fuel =>
    rw [World.block?] at ran
    have start : s₁.pc = s₁.pc + commandCount (statementsCode target table none []) := by
      rw [statementsCode]
      rfl
    refine ((simulates suits fuel).statements (statements_of_generated h generated) storage laid
      mirrors₁ lies₂ (nil_append _).symm start w none ran).bind fun s₂ exits => ?_
    cases exits with
    | through mirrors₂ pc₂ => exact arrives_epilogue mirrors₂ (pc₂ ▸ lies₃)

theorem block?_of_output? {fuel : Nat} {output : String}
    (h : program.output? fuel input = some output) :
    ∃ w, World.block? program.symbols fuel ⟨.empty, Text.words input.toList, ""⟩ program.root =
      some (w, none) ∧ w.output = output := by
  unfold Program.output? at h
  split at h
  next w ran =>
    cases h
    exact ⟨w, ran, rfl⟩
  next => cases h

/-- A program ends after some steps if the limit of steps is not lower: with the stack as it was, with
zero as its result, and with `output` written. -/
def Machine.Image.Finishes (image : Image) (input output : String) (steps : Nat) : Prop :=
  ∀ limit, steps ≤ limit → ∃ s, runFrom image limit 0 (State.start input 0) = .ok (s, steps) ∧
    s.reg .esp = stackTop ∧ s.reg .eax = 0 ∧ s.output = output

theorem run_of_finishes {output : String} {steps : Nat} (entry : image.entry? = some 0)
    (h : image.Finishes input output steps) (few : steps ≤ stepLimit) :
    image.run input = .ok ⟨output, 0, steps⟩ := by
  obtain ⟨s, ends, esp, eax, written⟩ := h stepLimit few
  rw [run_of_ending entry ends, if_neg (by simp [esp]), eax, written]

theorem finishes_of_arrives {output : String} (room : image.HasRoom (State.start input 0))
    (arrives : image.Arrives (Returns image output) (State.start input 0)) :
    ∃ steps, image.Finishes input output steps ∧ ∀ limit, limit < steps →
      ∃ written, runFrom image limit 0 (State.start input 0) = .error (.stepLimit written) := by
  obtain ⟨n, s, returns, _, ran, stopped⟩ := arrives.runFrom_eq room
  refine ⟨n + 1, fun limit more => ?_, fun limit few => ?_⟩
  · obtain ⟨rest, rfl⟩ : ∃ rest, limit = rest + 1 + n := ⟨limit - (n + 1), by omega⟩
    obtain ⟨s', ends, ending⟩ := returns.runFrom_eq rest (0 + n)
    rw [← ran, Nat.zero_add] at ends
    exact ⟨s', ends, ending⟩
  · by_cases before : limit < n
    · exact stopped limit 0 before
    · have cut := ran 0 0
      rw [Nat.zero_add, show n = limit by omega] at cut
      exact ⟨s.output, cut⟩

theorem load_of_compile {source assembly : String} {config : Config}
    (parsed : (parseSource source config.collect).result = .ok program)
    (compiled : (compile source config).result = .ok assembly)
    (named : ∀ name ∈ config.sourceName, '\n' ∉ name.toList) (decoded : program.texts = .ok texts) :
    load assembly = .ok (programImage config.target config.sourceName (config.layout program) program
      texts) := by
  obtain ⟨_, assembled⟩ := generated_of_compile parsed compiled
  rw [assembled]
  exact load_programCode (wellFormed_of_parseSource parsed) named decoded

/-- Compiler correctness. If the tree of an accepted source has a meaning for some input, the assembly
runs to its end on this input and writes what the tree means, if the stack does not outgrow the
addresses below it. Only the limit of steps can cut the run off. -/
theorem compile_correct {source assembly input output : String} {config : Config} {program : Program}
    {fuel : Nat} (parsed : (parseSource source config.collect).result = .ok program)
    (compiled : (compile source config).result = .ok assembly)
    (few : program.strings.size ≤ 0x1000000)
    (known : ∀ literal ∈ program.strings, ∀ escape ∈ escapes literal.content.toList,
      escape ∈ knownEscapes)
    (named : ∀ name ∈ config.sourceName, '\n' ∉ name.toList)
    (meaning : program.output? fuel input = some output)
    (room : ∀ image, load assembly = .ok image → image.HasRoom (State.start input 0)) :
    ∃ image steps, load assembly = .ok image ∧ image.Finishes input output steps ∧
      (steps ≤ stepLimit → run assembly input = .ok ⟨output, 0, steps⟩) ∧
      (stepLimit < steps → ∃ written, run assembly input = .error (.run (.stepLimit written))) := by
  have h := wellFormed_of_parseSource parsed
  obtain ⟨generated, _⟩ := generated_of_compile parsed compiled
  obtain ⟨texts, decoded⟩ := exists_texts known
  have count := (length_texts decoded).trans_le few
  have loaded := @loaded_programImage program config.target config.sourceName (config.layout program)
    texts h decoded
  have loads := load_of_compile parsed compiled named decoded
  have suits := suits_programImage h generated decoded count
  obtain ⟨w, ran, rfl⟩ := block?_of_output? meaning
  obtain ⟨steps, finishes, cut⟩ := finishes_of_arrives (room _ loads)
    (arrives_returns h generated loaded suits ran)
  have runs : run assembly input = ((programImage config.target config.sourceName
      (config.layout program) program texts).run input).mapError Fault.run := by
    rw [run, loads]
    rfl
  refine ⟨_, steps, loads, finishes, fun within => ?_, fun beyond => ?_⟩
  · rw [runs, run_of_finishes loaded.entry finishes within]
    rfl
  · obtain ⟨written, cut⟩ := cut stepLimit beyond
    rw [runs, run_of_fault loaded.entry cut]
    exact ⟨written, rfl⟩

/-- Numbers are read into an array, a jump leaves two blocks, and a loop prints what it computes. -/
theorem compile_correct_jump :
    ∃ assembly program image steps,
      (compile ("10 DIM A[3]\n20 FOR I = 0 TO 2\n30 READ \"%d\", A[I]\n40 IF A[I] < 0 THEN\n" ++
        "50 GOTO 80\n60 END\n70 END\n80 FOR J = 0 TO I - 1\n" ++
        "90 PRINT \"%s%d\\n\", \"#\", A[J] ^ 2 / 3\n100 END") { target := .elf }).result =
          .ok assembly ∧
      (parseSource ("10 DIM A[3]\n20 FOR I = 0 TO 2\n30 READ \"%d\", A[I]\n40 IF A[I] < 0 THEN\n" ++
        "50 GOTO 80\n60 END\n70 END\n80 FOR J = 0 TO I - 1\n" ++
        "90 PRINT \"%s%d\\n\", \"#\", A[J] ^ 2 / 3\n100 END") false).result = .ok program ∧
      program.output? 20 "5 7 -1" = some "#8\n#16\n" ∧
      load assembly = .ok image ∧ image.Finishes "5 7 -1" "#8\n#16\n" steps := by
  generalize hs : ("10 DIM A[3]\n20 FOR I = 0 TO 2\n30 READ \"%d\", A[I]\n40 IF A[I] < 0 THEN\n" ++
    "50 GOTO 80\n60 END\n70 END\n80 FOR J = 0 TO I - 1\n" ++
    "90 PRINT \"%s%d\\n\", \"#\", A[J] ^ 2 / 3\n100 END") = source
  have evaluated : ((compile source { target := .elf }).result.toOption.bind fun _ =>
      (parseSource source false).result.toOption.bind fun program =>
      program.texts.toOption.bind fun texts =>
      (program.output? 20 "5 7 -1").map fun output =>
        (output, (programImage .elf none (Config.layout { target := .elf } program) program
          texts).hasRoomFor 500 (State.start "5 7 -1" 0),
          program.strings.toList.map Literal.content)) =
      some ("#8\n#16\n", true, ["%d", "%s%d\\n", "#"]) := by
    subst hs
    decide +kernel
  obtain ⟨assembly, compiled, evaluated⟩ := exists_ok_of_bind evaluated
  obtain ⟨program, parsed, evaluated⟩ := exists_ok_of_bind evaluated
  obtain ⟨texts, decoded, evaluated⟩ := exists_ok_of_bind evaluated
  obtain ⟨output, meaning, evaluated⟩ := Option.map_eq_some_iff.mp evaluated
  simp only [Prod.mk.injEq] at evaluated
  obtain ⟨rfl, room, contents⟩ := evaluated
  have few : program.strings.size ≤ 0x1000000 := by
    rw [← Array.length_toList, ← length_map Literal.content, contents]
    decide
  have known := known_of_contents contents (by decide)
  have unnamed : ∀ name ∈ (none : Option String), '\n' ∉ name.toList := by simp
  have room : ∀ image, load assembly = .ok image → image.HasRoom (State.start "5 7 -1" 0) := by
    intro image found
    rw [@load_of_compile program texts source assembly { target := .elf } parsed compiled unnamed
      decoded] at found
    cases found
    exact Image.hasRoom_of_hasRoomFor room
  obtain ⟨image, steps, loads, finishes, _⟩ := @compile_correct source assembly "5 7 -1" "#8\n#16\n"
    { target := .elf } program 20 parsed compiled few known unnamed meaning room
  exact ⟨assembly, program, image, steps, compiled, parsed, meaning, loads, finishes⟩

end LineBasic
