import LineBasic.Proofs.Compile.Image

/-!
What is loaded is what was written, instruction by instruction.
-/

namespace LineBasic

open List Machine Lower

/-- The escapes in a text: the character after each backslash, if there is one. -/
def escapes : List Char → List (Option Char)
  | [] => []
  | '\\' :: c :: rest => some c :: escapes rest
  | ['\\'] => [none]
  | _ :: rest => escapes rest

/-- What a text with escapes stands for. -/
inductive Decodes : List Char → List Char → Prop where
  | nil : Decodes [] []
  | newline {cs ds : List Char} : Decodes cs ds → Decodes ('\\' :: 'n' :: cs) ('\n' :: ds)
  | tab {cs ds : List Char} : Decodes cs ds → Decodes ('\\' :: 't' :: cs) ('\t' :: ds)
  | quote {cs ds : List Char} : Decodes cs ds → Decodes ('\\' :: '"' :: cs) ('"' :: ds)
  | backslash {cs ds : List Char} : Decodes cs ds → Decodes ('\\' :: '\\' :: cs) ('\\' :: ds)
  | plain {c : Char} {cs ds : List Char} : c ≠ '\\' → Decodes cs ds → Decodes (c :: cs) (c :: ds)

def knownEscapes : List (Option Char) :=
  [some 'n', some 't', some '"', some '\\']

theorem exists_decodes {cs : List Char} (known : ∀ escape ∈ escapes cs, escape ∈ knownEscapes) :
    ∃ ds, Decodes cs ds := by
  induction cs using escapes.induct with
  | case1 => exact ⟨[], .nil⟩
  | case2 c rest ih =>
    rw [escapes] at known
    obtain ⟨ds, decodes⟩ := ih fun escape mem => known escape (mem_cons_of_mem _ mem)
    have first := known (some c) (mem_cons_self ..)
    simp only [knownEscapes, mem_cons, Option.some.injEq, not_mem_nil, or_false] at first
    rcases first with rfl | rfl | rfl | rfl
    · exact ⟨_, decodes.newline⟩
    · exact ⟨_, decodes.tab⟩
    · exact ⟨_, decodes.quote⟩
    · exact ⟨_, decodes.backslash⟩
  | case3 =>
    have last := known none (by simp [escapes])
    simp [knownEscapes] at last
  | case4 c rest notEscape notLast ih =>
    have ne : c ≠ '\\' := by
      rintro rfl
      cases rest with
      | nil => exact notLast rfl rfl
      | cons d rest => exact notEscape d rest rfl rfl
    rw [escapes] at known
    · obtain ⟨ds, decodes⟩ := ih known
      exact ⟨_, .plain ne decodes⟩
    · exact notEscape
    · exact notLast

theorem unescape_of_decodes {cs ds : List Char} (h : Decodes cs ds) : unescape cs = .ok ds := by
  induction h with
  | nil => rfl
  | plain ne _ ih =>
    rw [unescape, ih]
    · rfl
    all_goals simp [ne]
  | _ _ ih =>
    rw [unescape, ih]
    rfl

/-- What an operand of a program is in an image. The name of a string becomes the address of what its
literal stands for. -/
inductive Operand.Becomes (program : Program) (image : Image) :
    Operand → Machine.Operand → Prop where
  | imm (value : Int32) : Becomes program image (.imm value) (.imm value)
  | text {i : Nat} {literal : Literal} {address : Int32} {text : String}
      (found : program.strings[i]? = some literal) (held : image.string address = .ok text)
      (decodes : Decodes literal.content.toList text.toList) :
      Becomes program image (.addr (textLabel i)) (.imm address)
  | reg (register : Register) : Becomes program image (.reg register) (.reg register)
  | mem (disp : Int32) (base : Register) :
      Becomes program image (.mem disp base) (.mem disp base none)
  | indexed (disp : Int32) (base index : Register) {scale : Nat} {factor : Int32}
      (same : factor.toInt = scale) :
      Becomes program image (.indexed disp base index scale) (.mem disp base (some (index, factor)))

inductive Instr.Becomes (program : Program) (image : Image) : Instr → Action → Prop where
  | push {source : Operand} {source' : Machine.Operand} :
      source.Becomes program image source' → Becomes program image (.push source) (.push source')
  | pop (target : Register) : Becomes program image (.pop target) (.pop (.reg target))
  | mov {source target : Operand} {source' target' : Machine.Operand} :
      source.Becomes program image source' → target.Becomes program image target' →
      Becomes program image (.mov source target) (.mov source' target')
  | lea {source : Operand} {source' : Machine.Operand} (target : Register) :
      source.Becomes program image source' →
      Becomes program image (.lea source target) (.lea source' (.reg target))
  | add {source target : Operand} {source' target' : Machine.Operand} :
      source.Becomes program image source' → target.Becomes program image target' →
      Becomes program image (.add source target) (.add source' target')
  | sub {source target : Operand} {source' target' : Machine.Operand} :
      source.Becomes program image source' → target.Becomes program image target' →
      Becomes program image (.sub source target) (.sub source' target')
  | imul {source : Operand} {source' : Machine.Operand} (target : Register) :
      source.Becomes program image source' →
      Becomes program image (.imul source target) (.imul source' (.reg target))
  | cltd : Becomes program image .cltd .cltd
  | idiv (divisor : Register) : Becomes program image (.idiv divisor) (.idiv (.reg divisor))
  | dec (target : Register) : Becomes program image (.dec target) (.dec (.reg target))
  | cmp {source target : Operand} {source' target' : Machine.Operand} :
      source.Becomes program image source' → target.Becomes program image target' →
      Becomes program image (.cmp source target) (.cmp source' target')
  | jmp (goal : String) : Becomes program image (.jmp goal) (.jmp goal)
  | jcc (condition : Condition) (goal : String) :
      Becomes program image (.jcc condition goal) (.jcc condition goal)
  | call (symbol : String) : Becomes program image (.call symbol) (.call symbol)
  | leave : Becomes program image .leave .leave
  | ret : Becomes program image .ret .ret

/-- An instruction that is executed: neither a directive nor a label. -/
def Instr.isExecuted : Instr → Bool
  | file _ | .section _ | text | globl _ | ascii _ | label _ => false
  | _ => true

theorem Instr.isCommand_eq (instr : Instr) : instr.isCommand = instr.isExecuted := by
  cases instr <;> rfl

/-- An image with the commands and the labels of some code, and nothing else. -/
structure Represents (program : Program) (code : List Instr) (image : Image) : Prop where
  commands : Forall₂ (fun instr command =>
    instr.Becomes program image command.action ∧ instr.render = "\t" ++ command.source)
    (code.filter Instr.isExecuted) image.code.toList
  labels : ∀ name pc, image.labels.lookup name = some pc ↔
    ∃ before after, code = before ++ .label name :: after ∧
      pc = (before.filter Instr.isExecuted).length

def Program.Decoded (program : Program) (texts : List String) : Prop :=
  ∀ (i : Nat) (text : String), texts[i]? = some text → ∃ literal : Literal,
    program.strings[i]? = some literal ∧ Decodes literal.content.toList text.toList

section Loading

variable {program : Program} {image : Image} {texts : List String}

theorem decoded_of_texts (decoded : program.texts = .ok texts)
    (known : ∀ literal ∈ program.strings, ∀ escape ∈ escapes literal.content.toList,
      escape ∈ knownEscapes) : program.Decoded texts := by
  intro i text found
  have each := forall₂_of_mapM decoded
  obtain ⟨inside, eq⟩ := List.getElem?_eq_some_iff.mp found
  have bound : i < program.strings.toList.length := each.length_eq ▸ inside
  have read : decodeContent program.strings.toList[i].content = .ok texts[i] := each.get bound inside
  obtain ⟨ds, decodes⟩ := exists_decodes (known program.strings.toList[i]
    (Array.mem_toList_iff.mp (getElem_mem bound)))
  rw [decodeContent, unescape_of_decodes decodes] at read
  have same : text = String.ofList ds := eq.symm.trans (Except.ok.inj read).symm
  refine ⟨program.strings.toList[i], by simp at bound ⊢, ?_⟩
  rw [same, String.toList_ofList]
  exact decodes

theorem known_of_contents {contents : List String}
    (eq : program.strings.toList.map Literal.content = contents)
    (known : ∀ text ∈ contents, ∀ escape ∈ escapes text.toList, escape ∈ knownEscapes) :
    ∀ literal ∈ program.strings, ∀ escape ∈ escapes literal.content.toList,
      escape ∈ knownEscapes :=
  fun literal mem => known literal.content (eq ▸ mem_map_of_mem (Array.mem_toList_iff.mpr mem))

theorem length_texts (decoded : program.texts = .ok texts) : texts.length = program.strings.size :=
  (forall₂_of_mapM decoded).length_eq.symm.trans Array.length_toList

theorem exists_texts (known : ∀ literal ∈ program.strings,
      ∀ escape ∈ escapes literal.content.toList, escape ∈ knownEscapes) :
    ∃ texts, program.texts = .ok texts := by
  have all (literals : List Literal) (known : ∀ literal ∈ literals,
      ∀ escape ∈ escapes literal.content.toList, escape ∈ knownEscapes) :
      ∃ texts, literals.mapM (fun literal => decodeContent literal.content) = .ok texts := by
    induction literals with
    | nil => exact ⟨[], rfl⟩
    | cons literal literals ih =>
      obtain ⟨ds, decodes⟩ := exists_decodes (known literal (mem_cons_self ..))
      obtain ⟨texts, rest⟩ := ih fun other mem => known other (mem_cons_of_mem _ mem)
      have first : decodeContent literal.content = .ok (String.ofList ds) := by
        rw [decodeContent, unescape_of_decodes decodes]
      refine ⟨String.ofList ds :: texts, ?_⟩
      rw [mapM_cons, first]
      simp only [bind, Except.bind, rest]
      rfl
  exact all program.strings.toList fun literal mem => known literal (Array.mem_toList_iff.mp mem)

theorem becomes_of_operandOf (data : image.data = dataOf 0 texts) (few : texts.length ≤ 0x1000000)
    (decodes : program.Decoded texts)
    {source : Operand} {target : Machine.Operand} (legible : source.Legible)
    (h : operandOf (dataOf 0 texts) source = some target) : source.Becomes program image target := by
  cases source with
  | imm | reg | mem =>
    cases h
    constructor
  | indexed disp base index scale =>
    cases h
    cases legible
    exact .indexed disp base index (by decide)
  | addr label =>
    obtain ⟨d, found, rfl⟩ := Option.map_eq_some_iff.mp h
    obtain ⟨i, text, inside, rfl⟩ := mem_dataOf.mp (mem_of_find?_eq_some found)
    have named := find?_some found
    have name : textLabel i = label := beq_iff_eq.mp named
    have held : image.string (datum i text).address = .ok text := by
      rw [Image.string, data, find?_address inside few]
      rfl
    obtain ⟨literal, known, decoded⟩ := decodes i text inside
    rw [← name]
    exact .text known held decoded

theorem becomes_of_actionOf {data : List Datum} {instr : Instr} {action : Action}
    (operands : ∀ source ∈ instr.operands, ∀ target, operandOf data source = some target →
      source.Becomes program image target)
    (h : actionOf data instr = some action) : instr.Becomes program image action := by
  cases instr with
  | file | «section» | text | globl | ascii | label => cases h
  | cltd | leave | ret | jmp | call =>
    cases h
    constructor
  | jcc condition goal =>
    cases condition <;> cases h <;> constructor
  | pop | idiv | dec =>
    obtain ⟨target', found, rfl⟩ := actionOf_one rfl rfl h
    cases found
    constructor
  | push source =>
    obtain ⟨source', found, rfl⟩ := actionOf_one rfl rfl h
    exact .push (operands source (by simp [Instr.operands]) source' found)
  | mov source target | add source target | sub source target | cmp source target =>
    obtain ⟨source', target', found, found', rfl⟩ := actionOf_two rfl rfl h
    constructor
    · exact operands source (by simp [Instr.operands]) source' found
    · exact operands target (by simp [Instr.operands]) target' found'
  | lea source target | imul source target =>
    obtain ⟨source', target', found, found', rfl⟩ := actionOf_two rfl rfl h
    cases found'
    constructor
    exact operands source (by simp [Instr.operands]) source' found

theorem commands_forall₂ {data : List Datum} {code : List Instr}
    (resolved : ∀ instr ∈ code, instr.isCommand → (actionOf data instr).isSome) :
    Forall₂ (fun instr command => commandOf data instr = some command)
      (code.filter Instr.isExecuted) (code.filterMap (commandOf data)) := by
  induction code with
  | nil => exact .nil
  | cons instr code ih =>
    have rest := ih fun instr mem => resolved instr (mem_cons_of_mem _ mem)
    have first := resolved instr (mem_cons_self ..)
    rw [Instr.isCommand_eq] at first
    rw [filter_cons, filterMap_cons]
    cases found : actionOf data instr with
    | none =>
      have plain : instr.isExecuted = false := by
        rw [← Bool.not_eq_true]
        intro executed
        simpa [found] using first executed
      simpa [plain, commandOf, found] using rest
    | some action =>
      have executed : instr.isExecuted := Instr.isCommand_eq instr ▸ isCommand_of_action found
      have made : commandOf data instr =
          some ⟨action, String.ofList instr.render.toList.tail⟩ := by
        rw [commandOf, found, Option.map_some]
      rw [executed, made, if_pos rfl]
      exact .cons made rest

theorem commandCount_eq (code : List Instr) :
    commandCount code = (code.filter Instr.isExecuted).length := by
  rw [commandCount, countP_eq_length_filter]
  congr 1
  exact filter_congr fun instr _ => instr.isCommand_eq

theorem mem_labelsFrom {name : String} {pc start : Nat} {code : List Instr} :
    (name, pc) ∈ labelsFrom start code ↔ ∃ before after, code = before ++ .label name :: after ∧
      pc = start + commandCount before := by
  induction code generalizing start with
  | nil => simp [labelsFrom]
  | cons instr code ih =>
    rw [labelsFrom, mem_append, ih]
    constructor
    · rintro (first | ⟨before, after, rfl, rfl⟩)
      · obtain ⟨other, named, eq⟩ := Option.map_eq_some_iff.mp (Option.mem_toList.mp first)
        cases eq
        cases instr with
        | label =>
          cases named
          exact ⟨[], code, rfl, rfl⟩
        | _ => cases named
      · exact ⟨instr :: before, after, rfl, Image.commandCount_cons instr start⟩
    · rintro ⟨before, after, eq, rfl⟩
      cases before with
      | nil =>
        cases eq
        exact .inl (by simp [Instr.name?, commandCount])
      | cons first before =>
        obtain ⟨rfl, rfl⟩ := List.cons.inj eq
        exact .inr ⟨before, after, rfl, (Image.commandCount_cons instr start).symm⟩

theorem lookup_labels {data : List Datum} {code : List Instr} (distinct : (labelNames code).Nodup)
    (name : String) (pc : Nat) :
    (Image.extend { data } code).labels.lookup name = some pc ↔
      ∃ before after, code = before ++ .label name :: after ∧
        pc = (before.filter Instr.isExecuted).length := by
  have labels : (Image.extend { data } code).labels = (labelsFrom 0 code).reverse := by
    simp [Image.extend]
  have once : ((labelsFrom 0 code).map Prod.fst).Nodup := by
    rw [map_fst_labelsFrom]
    exact distinct
  have places : (name, pc) ∈ labelsFrom 0 code ↔ ∃ before after,
      code = before ++ .label name :: after ∧ pc = (before.filter Instr.isExecuted).length := by
    simp only [mem_labelsFrom, commandCount_eq, Nat.zero_add]
  rw [← places, labels]
  constructor
  · intro found
    exact mem_reverse.mp (Parse.mem_of_lookup found)
  · exact Image.lookup_reverse once

theorem represents_extend {code : List Instr} (few : texts.length ≤ 0x1000000)
    (decodes : program.Decoded texts)
    (legible : ∀ instr ∈ code, instr.Legible)
    (resolved : ∀ instr ∈ code, instr.isCommand → (actionOf (dataOf 0 texts) instr).isSome)
    (distinct : (labelNames code).Nodup) :
    Represents program code (Image.extend { data := dataOf 0 texts } code) where
  commands := by
    have made := commands_forall₂ resolved
    have commands : (Image.extend { data := dataOf 0 texts } code).code.toList =
        code.filterMap (commandOf (dataOf 0 texts)) := by
      simp [Image.extend]
    have readable : ∀ instr ∈ code.filter Instr.isExecuted, instr.Legible := fun instr mem =>
      legible instr (mem_filter.mp mem).1
    rw [commands]
    refine ((forall₂_and_left _ _).mpr ⟨readable, made⟩).imp ?_
    rintro instr command ⟨readable, found⟩
    obtain ⟨action, acts, rfl⟩ := Option.map_eq_some_iff.mp found
    refine ⟨becomes_of_actionOf ?_ acts, ?_⟩
    · intro source mem target found
      exact becomes_of_operandOf rfl few decodes (legible_operands readable source mem) found
    · obtain ⟨cs, eq, _⟩ := code_render readable (isCommand_of_action acts)
      have source : (String.ofList instr.render.toList.tail).toList = cs := by
        rw [String.toList_ofList, eq, tail_cons]
      rw [← String.toList_inj, String.toList_append, source, eq]
      rfl
  labels := lookup_labels distinct

end Loading

/-- Whatever is compiled can be loaded, and what is loaded are the instructions that were compiled. -/
theorem compile_loads {source assembly : String} {config : Config} {program : Program}
    (parsed : (parseSource source config.collect).result = .ok program)
    (compiled : (compile source config).result = .ok assembly)
    (few : program.strings.size < 8000000)
    (known : ∀ literal ∈ program.strings, ∀ escape ∈ escapes literal.content.toList,
      escape ∈ knownEscapes)
    (named : ∀ name ∈ config.sourceName, '\n' ∉ name.toList) :
    assembly = assemble (config.code program) ∧
      ∃ image, load assembly = .ok image ∧ Represents program (config.code program) image := by
  obtain ⟨accepted, assembled⟩ := accepted_of_compile parsed compiled
  have h := wellFormed_of_parseSource parsed
  have code : config.code program = programCode config.target config.sourceName
      (config.layout program) program := (Generator.generated h accepted).code
  obtain ⟨texts, decoded⟩ := exists_texts known
  have count : texts.length ≤ 0x1000000 := by
    rw [length_texts decoded]
    omega
  refine ⟨assembled, _, ?_, represents_extend count (decoded_of_texts decoded known) ?_ ?_ ?_⟩
  · rw [assembled, code]
    exact load_programCode h named decoded
  · rw [code]
    exact legible_programCode h named
  · rw [code]
    exact resolved_programCode h decoded
  · rw [code]
    exact nodup_labelNames h

/-- Escapes, an array in a loop and a call, with a name for the source. -/
theorem compile_loads_loop :
    ∃ assembly program image,
      (compile ("10 DIM A[3]\n20 FOR I = 0 TO 2\n30 A[I] = 0 - I\n" ++
        "40 PRINT \"a:\\t%d \\\"$LC0\\\"\\n\", A[I]\n50 END")
        { target := .elf, sourceName := some "x.bas" }).result = .ok assembly ∧
      load assembly = .ok image ∧
      Represents program (Config.code { target := .elf, sourceName := some "x.bas" } program)
        image ∧
      (program.strings.toList.map Literal.content) = ["a:\\t%d \\\"$LC0\\\"\\n"] := by
  generalize hs : ("10 DIM A[3]\n20 FOR I = 0 TO 2\n30 A[I] = 0 - I\n" ++
    "40 PRINT \"a:\\t%d \\\"$LC0\\\"\\n\", A[I]\n50 END") = source
  have evaluated : ((compile source
        { target := .elf, sourceName := some "x.bas" }).result.toOption.bind fun _ =>
      (parseSource source false).result.toOption.map fun program =>
        program.strings.toList.map Literal.content) = some ["a:\\t%d \\\"$LC0\\\"\\n"] := by
    subst hs
    decide +kernel
  obtain ⟨assembly, compiled, evaluated⟩ := exists_ok_of_bind evaluated
  obtain ⟨program, parsed, contents⟩ := exists_ok_of_map evaluated
  have few : program.strings.size < 8000000 := by
    rw [← Array.length_toList, ← length_map Literal.content, contents]
    decide
  have known := known_of_contents contents (by decide)
  have named : ∀ name ∈ some "x.bas", '\n' ∉ name.toList := by
    rintro name ⟨⟩
    decide
  obtain ⟨_, image, loads, represents⟩ := @compile_loads source assembly
    { target := .elf, sourceName := some "x.bas" } program parsed compiled few known named
  exact ⟨assembly, program, image, compiled, loads, represents, contents⟩

end LineBasic
