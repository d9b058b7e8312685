import LineBasic.Proofs.Compile.Targets
import LineBasic.Proofs.Lower.Renumber
import LineBasic.Proofs.Parse.Renumber
import Mathlib.Logic.Equiv.Basic

/-!
Sources whose lines are renumbered are accepted alike and run alike.
-/

namespace LineBasic

open List Machine Lower

namespace Machine

variable {image image' : Image}

/-- Commands of two images that do the same. Those that jump may name different labels, if these stand
at the same place. -/
inductive Command.Equal (image image' : Image) : Command → Command → Prop where
  | same (command : Command) : command.action.goal? = none → Equal image image' command command
  | jmp {goal goal' source source' : String} {place : Nat} :
      image.labels.lookup goal = some place → image'.labels.lookup goal' = some place →
      Equal image image' ⟨.jmp goal, source⟩ ⟨.jmp goal', source'⟩
  | jcc {condition : Condition} {goal goal' source source' : String} {place : Nat} :
      image.labels.lookup goal = some place → image'.labels.lookup goal' = some place →
      Equal image image' ⟨.jcc condition goal, source⟩ ⟨.jcc condition goal', source'⟩

theorem step_equal (data : image.data = image'.data) {command command' : Command}
    (h : command.Equal image image' command') (s : State) :
    step image command s = step image' command' s := by
  cases h with
  | same _ stays =>
    have moved := @step_withPc image image' command command data rfl rfl stays s s.pc
    rw [State.withPc_pc] at moved
    rw [moved]
    cases ends : step image' command s with
    | error => rfl
    | ok progress => exact congrArg Except.ok (withPc_of_step stays ends)
  | jmp found found' | jcc found found' =>
    unfold step
    simp only [State.jump, found, found']

/-- Images that hold the same strings and the same commands, up to the names of labels. -/
structure Image.Equal (image image' : Image) : Prop where
  data : image.data = image'.data
  entry : image.entry? = image'.entry?
  commands : ∀ pc : Nat, Option.Rel (Command.Equal image image') image.code[pc]? image'.code[pc]?

namespace Image.Equal

theorem runFrom (h : image.Equal image') (limit steps : Nat) (s : State) :
    runFrom image limit steps s = runFrom image' limit steps s := by
  induction limit generalizing steps s with
  | zero => rfl
  | succ limit ih =>
    rw [Machine.runFrom, Machine.runFrom]
    have commands := h.commands s.pc
    generalize image.code[s.pc]? = found, image'.code[s.pc]? = found' at commands ⊢
    cases commands with
    | none => rfl
    | some equal => simp only [step_equal h.data equal, ih]

theorem run (h : image.Equal image') (input : String) : image.run input = image'.run input := by
  unfold Image.run
  simp only [h.entry, h.runFrom]

end Image.Equal

end Machine

section Images

variable {ρ : Nat ↪ Nat} {image image' : Image} {data : List Datum}

theorem count_relabel (code : List Instr) :
    ((code.map (Instr.relabel ρ)).filter Instr.isExecuted).length =
      (code.filter Instr.isExecuted).length := by
  have kept : Instr.isExecuted ∘ Instr.relabel ρ = Instr.isExecuted := by
    funext instr
    cases instr <;> rfl
  rw [filter_map, length_map, kept]

theorem lookup_relabel {code before after : List Instr} {name : String}
    (distinct : (labelNames code).Nodup)
    (distinct' : (labelNames (code.map (Instr.relabel ρ))).Nodup)
    (eq : code = before ++ .label name :: after) :
    ∃ place, (Image.extend { data } code).labels.lookup name = some place ∧
      (Image.extend { data } (code.map (Instr.relabel ρ))).labels.lookup (relabel ρ name) =
        some place := by
  refine ⟨_, (lookup_labels distinct name _).mpr ⟨before, after, eq, rfl⟩,
    (lookup_labels distinct' _ _).mpr
      ⟨before.map (Instr.relabel ρ), after.map (Instr.relabel ρ), ?_, (count_relabel before).symm⟩⟩
  rw [eq, map_append]
  rfl

theorem command_relabel {instr : Instr}
    (goals : ∀ goal, (instr = .jmp goal ∨ ∃ condition, instr = .jcc condition goal) →
      ∃ place, image.labels.lookup goal = some place ∧
        image'.labels.lookup (relabel ρ goal) = some place) :
    Option.Rel (Command.Equal image image') (commandOf data instr)
      (commandOf data (instr.relabel ρ)) := by
  by_cases jump : ∃ goal, instr = .jmp goal ∨ ∃ condition, instr = .jcc condition goal
  · obtain ⟨goal, jump⟩ := jump
    obtain ⟨place, found, found'⟩ := goals goal jump
    rcases jump with rfl | ⟨condition, rfl⟩
    · exact .some (.jmp found found')
    · cases condition <;> exact .some (.jcc found found')
  · have kept : commandOf data (instr.relabel ρ) = commandOf data instr := by
      cases instr with
      | jmp goal => exact absurd ⟨goal, .inl rfl⟩ jump
      | jcc condition goal => exact absurd ⟨goal, .inr ⟨condition, rfl⟩⟩ jump
      | _ => rfl
    rw [kept]
    cases found : commandOf data instr with
    | none => exact .none
    | some command =>
      obtain ⟨action, acts, rfl⟩ := Option.map_eq_some_iff.mp found
      exact .some (.same _ (Option.eq_none_iff_forall_ne_some.mpr fun goal jumps =>
        jump ⟨goal, jump_of_goal acts jumps⟩))

variable {program : Program} {target : Target} {sourceName : Option String} {table : Array Variable}
  {texts : List String}

theorem equal_programImage {code : List Instr} (h : program.WellFormed)
    (h' : (program.renumber ρ).WellFormed) (decoded : program.texts = .ok texts)
    (generated : Generated target sourceName program table code)
    (renamed : programCode target sourceName table (program.renumber ρ) =
      (programCode target sourceName table program).map (Instr.relabel ρ)) :
    (programImage target sourceName table program texts).Equal
      (programImage target sourceName table (program.renumber ρ) texts) where
  data := rfl
  entry := by
    rw [(loaded_programImage h decoded).entry, (@loaded_programImage (program.renumber ρ) target
      sourceName table texts h' decoded).entry]
  commands pc := by
    have distinct := @nodup_labelNames program target sourceName table h
    have distinct' := @nodup_labelNames (program.renumber ρ) target sourceName table h'
    unfold programImage
    rw [renamed] at distinct' ⊢
    have pairs : Forall₂ (fun instr instr' => Option.Rel (Command.Equal
          (Image.extend { data := dataOf 0 texts } (programCode target sourceName table program))
          (Image.extend { data := dataOf 0 texts }
            ((programCode target sourceName table program).map (Instr.relabel ρ))))
        (commandOf (dataOf 0 texts) instr) (commandOf (dataOf 0 texts) instr'))
        (programCode target sourceName table program)
        ((programCode target sourceName table program).map (Instr.relabel ρ)) := by
      refine forall₂_map_right_iff.mpr (forall₂_same.mpr fun instr mem => ?_)
      refine command_relabel fun goal jump => ?_
      obtain ⟨before, after, eq⟩ := label_of_jump h generated mem jump
      refine @lookup_relabel ρ _ _ (earlyCode target sourceName table program ++ before) after goal
        distinct distinct' ?_
      rw [programCode_split, eq, append_assoc]
    have code (code : List Instr) : (Image.extend { data := dataOf 0 texts } code).code.toList =
        code.filterMap (commandOf (dataOf 0 texts)) := by
      simp [Image.extend]
    rw [← Array.getElem?_toList, ← Array.getElem?_toList, code, code]
    exact rel_getElem? (rel_filterMap (fun _ _ equal => equal) pairs) pc

end Images

section Renumbering

variable {ρ : Nat ↪ Nat}

theorem matched_parseSource (small : ∀ n, ρ n < 0x100000000 ↔ n < 0x100000000) (source : String)
    (collect : Bool) : Matched (Maps (Program.renumber ρ)) (parseSource source collect).result
      (parseSource (renumber ρ source) collect).result := by
  have same := tokenize_renumber ρ source
  cases scanned : tokenize source with
  | error d =>
    rw [scanned] at same
    cases scanned' : tokenize (renumber ρ source) with
    | error d' =>
      rw [result_parseSource_of_fault scanned, result_parseSource_of_fault scanned']
      exact .error
    | ok tokens' =>
      rw [scanned'] at same
      cases same
  | ok tokens =>
    rw [scanned] at same
    cases scanned' : tokenize (renumber ρ source) with
    | error d' =>
      rw [scanned'] at same
      cases same
    | ok tokens' =>
      rw [scanned'] at same
      cases same with
      | ok same =>
        rw [result_parseSource_of_scanned scanned, result_parseSource_of_scanned scanned']
        exact matched_parse small same collect

/-- Code generation fails for both programs, or it succeeds for both, with the same addresses and with
labels renamed. -/
theorem generate_renumber {program : Program} (h : program.WellFormed)
    (h' : (program.renumber ρ).WellFormed) (config : Config) :
    (∃ ds ds', (generate config program).result = .error ds ∧
        (generate config (program.renumber ρ)).result = .error ds') ∨
      ((generate config program).result = .ok (assemble (config.code program)) ∧
        (generate config (program.renumber ρ)).result =
          .ok (assemble ((config.code program).map (Instr.relabel ρ))) ∧
        Generated config.target config.sourceName program (config.layout program)
          (config.code program) ∧
        Generated config.target config.sourceName (program.renumber ρ) (config.layout program)
          ((config.code program).map (Instr.relabel ρ))) := by
  unfold generate Config.code Config.layout
  rcases Generator.compile_renumber ρ h
    { target := config.target, sourceName := config.sourceName } with ⟨d, d', failed, failed'⟩ |
      ⟨ok, ok', symbols, code⟩
  · simp only [failed, failed']
    exact .inl ⟨_, _, rfl, rfl⟩
  · have generated' := Generator.generated h' ok'
    rw [symbols, code, Array.toList_map] at generated'
    simp only [ok, ok']
    refine .inr ⟨rfl, congrArg Except.ok ?_, Generator.generated h ok, generated'⟩
    unfold Generator.assembly
    rw [code, Array.toList_map]

theorem run_relabel {program : Program} {target : Target} {sourceName : Option String}
    {table : Array Variable} {code : List Instr} (h : program.WellFormed)
    (h' : (program.renumber ρ).WellFormed) (named : ∀ name ∈ sourceName, '\n' ∉ name.toList)
    (generated : Generated target sourceName program table code)
    (generated' : Generated target sourceName (program.renumber ρ) table
      (code.map (Instr.relabel ρ))) (input : String) :
    run (assemble (code.map (Instr.relabel ρ))) input = run (assemble code) input := by
  have renamed := generated'.code.symm
  rw [generated'.code, run, run]
  rw [generated.code] at renamed ⊢
  cases decoded : program.texts with
  | error fault =>
    rw [load_of_unread (legible_programCode h named) (by rw [gather_programCode h, decoded]; rfl),
      load_of_unread (legible_programCode h' named) (by
        rw [gather_programCode h', Program.texts]
        exact congrArg _ decoded)]
  | ok texts =>
    have equal := equal_programImage h h' decoded generated renamed
    rw [load_programCode h named decoded, load_programCode h' named decoded]
    exact congrArg (Except.mapError Machine.Fault.run) (equal.run input).symm

end Renumbering

/-- Numbers renumbered as those of 32 bits are. No line has a number of more bits. -/
def renumbering (f : UInt32 ↪ UInt32) : Nat ↪ Nat where
  toFun n := if n < 0x100000000 then (f (UInt32.ofNat n)).toNat else n
  inj' n m eq := by
    dsimp only at eq
    have bound (w : UInt32) : w.toNat < 0x100000000 := UInt32.toNat_lt w
    split at eq <;> split at eq
    next small small' =>
      have words := congrArg UInt32.toNat (f.injective (UInt32.toNat_inj.mp eq))
      rwa [UInt32.toNat_ofNat_of_lt' small, UInt32.toNat_ofNat_of_lt' small'] at words
    next large =>
      have := bound (f (UInt32.ofNat n))
      omega
    next large _ =>
      have := bound (f (UInt32.ofNat m))
      omega
    next => exact eq

theorem renumbering_lt (f : UInt32 ↪ UInt32) (n : Nat) :
    renumbering f n < 0x100000000 ↔ n < 0x100000000 := by
  show (if n < 0x100000000 then (f (UInt32.ofNat n)).toNat else n) < 0x100000000 ↔ _
  split
  next small => exact ⟨fun _ => small, fun _ => UInt32.toNat_lt _⟩
  next => exact Iff.rfl

/-- A source is accepted if and only if it is accepted with its lines renumbered. Then the assembly is
the same up to the labels made of the numbers of lines, and it runs in the same way on every input,
unless the name of the source has lines of its own. -/
theorem compile_renumbered (f : UInt32 ↪ UInt32) (source : String) (config : Config) :
    (∃ ds ds', (compile source config).result = .error ds ∧
        (compile (renumber (renumbering f) source) config).result = .error ds') ∨
      ∃ program, (parseSource source config.collect).result = .ok program ∧
        (compile source config).result = .ok (assemble (config.code program)) ∧
        (compile (renumber (renumbering f) source) config).result =
          .ok (assemble ((config.code program).map (Instr.relabel (renumbering f)))) ∧
        ((∀ name ∈ config.sourceName, '\n' ∉ name.toList) → ∀ input,
          run (assemble ((config.code program).map (Instr.relabel (renumbering f)))) input =
            run (assemble (config.code program)) input) := by
  have same := matched_parseSource (renumbering_lt f) source config.collect
  cases parsed : (parseSource source config.collect).result with
  | error ds =>
    cases parsed' : (parseSource (renumber (renumbering f) source) config.collect).result with
    | error ds' =>
      exact .inl ⟨ds, ds', result_compile_of_faults config parsed,
        result_compile_of_faults config parsed'⟩
    | ok program' =>
      rw [parsed, parsed'] at same
      cases same
  | ok program =>
    cases parsed' : (parseSource (renumber (renumbering f) source) config.collect).result with
    | error ds' =>
      rw [parsed, parsed'] at same
      cases same
    | ok program' =>
      rw [parsed, parsed'] at same
      cases same with
      | ok renumbered =>
        cases renumbered
        have h := wellFormed_of_parseSource parsed
        have h' := wellFormed_of_parseSource parsed'
        rw [result_compile_of_parsed config parsed, result_compile_of_parsed config parsed']
        rcases generate_renumber h h' config with failed | ⟨ok, ok', generated, generated'⟩
        · exact .inl failed
        · exact .inr ⟨program, rfl, ok, ok', fun named input =>
            run_relabel h h' named generated generated' input⟩

/-- A loop made of a jump back, with the numbers of the jump and of its goal exchanged. -/
theorem compile_renumbered_countdown :
    renumber (renumbering (Equiv.swap 20 50).toEmbedding)
        "10 LET N = 2\n20 PRINT \"%d\\n\", N\n30 LET N = N - 1\n40 IF N > 0\n50 GOTO 20\n60 END" =
      "10 LET N = 2\n50 PRINT \"%d\\n\", N\n30 LET N = N - 1\n40 IF N > 0\n20 GOTO 50\n60 END" ∧
    ∃ assembly assembly',
      (compile "10 LET N = 2\n20 PRINT \"%d\\n\", N\n30 LET N = N - 1\n40 IF N > 0\n50 GOTO 20\n60 END"
        ⟨.elf, false, some "n.bas"⟩).result = .ok assembly ∧
      (compile "10 LET N = 2\n50 PRINT \"%d\\n\", N\n30 LET N = N - 1\n40 IF N > 0\n20 GOTO 50\n60 END"
        ⟨.elf, false, some "n.bas"⟩).result = .ok assembly' ∧
      ∀ input, run assembly' input = run assembly input := by
  generalize hs : "10 LET N = 2\n20 PRINT \"%d\\n\", N\n30 LET N = N - 1\n40 IF N > 0\n50 GOTO 20\n60 END" =
    source
  generalize hs' : "10 LET N = 2\n50 PRINT \"%d\\n\", N\n30 LET N = N - 1\n40 IF N > 0\n20 GOTO 50\n60 END" =
    source'
  have renumbered : renumber (renumbering (Equiv.swap 20 50).toEmbedding) source = source' := by
    subst hs hs'
    decide +kernel
  have evaluated : ((compile source ⟨.elf, false, some "n.bas"⟩).result.toOption.map fun _ => ()) =
      some () := by
    subst hs
    decide +kernel
  obtain ⟨text, accepted, _⟩ := exists_ok_of_map evaluated
  have named : ∀ name ∈ some "n.bas", '\n' ∉ name.toList := by
    rintro name ⟨⟩
    decide
  rcases compile_renumbered (Equiv.swap 20 50).toEmbedding source ⟨.elf, false, some "n.bas"⟩ with
    ⟨ds, ds', failed, _⟩ | ⟨program, _, ok, ok', runs⟩
  · cases accepted.symm.trans failed
  · rw [renumbered] at ok'
    exact ⟨renumbered, _, _, ok, ok', runs named⟩

/-- A name with a line that is a label takes the label from the line of that number. -/
theorem renumbered_name_clash :
    ∃ assembly assembly',
      (compile "10 PRINTLN\n" ⟨.mingw, false, some "a\nLINE_20:\nb"⟩).result = .ok assembly ∧
      (compile (renumber (renumbering (Equiv.swap 10 20).toEmbedding) "10 PRINTLN\n")
        ⟨.mingw, false, some "a\nLINE_20:\nb"⟩).result = .ok assembly' ∧
      run assembly "" = .ok ⟨"\n", 0, 9⟩ ∧
      run assembly' "" = .error (.load (.duplicateLabel "LINE_20")) := by
  generalize hs : "10 PRINTLN\n" = source
  generalize hn : "a\nLINE_20:\nb" = name
  have evaluated : ((compile source ⟨.mingw, false, some name⟩).result.toOption.map fun assembly =>
      run assembly "") = some (.ok ⟨"\n", 0, 9⟩) := by
    subst hs hn
    decide +kernel
  have evaluated' : ((compile (renumber (renumbering (Equiv.swap 10 20).toEmbedding) source)
      ⟨.mingw, false, some name⟩).result.toOption.map fun assembly => run assembly "") =
        some (.error (.load (.duplicateLabel "LINE_20"))) := by
    subst hs hn
    decide +kernel
  obtain ⟨assembly, accepted, runs⟩ := exists_ok_of_map evaluated
  obtain ⟨assembly', accepted', runs'⟩ := exists_ok_of_map evaluated'
  exact ⟨assembly, assembly', accepted, accepted', runs, runs'⟩

end LineBasic
