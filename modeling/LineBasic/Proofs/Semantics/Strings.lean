import LineBasic.Proofs.Semantics.Branches

/-!
String literals on their way from the source to the output.
-/

namespace LineBasic

open List Machine Lower

section Escapes

variable {cs ds : List Char}

theorem decodes_of_unescape (h : unescape cs = .ok ds) : Decodes cs ds := by
  fun_induction unescape cs generalizing ds with
  | case1 =>
    cases h
    exact .nil
  | case2 rest ih | case3 rest ih | case4 rest ih | case5 rest ih =>
    cases eq : unescape rest with
    | error => simp [eq] at h
    | ok others =>
      rw [eq] at h
      cases h
      constructor
      exact ih eq
  | case6 => cases h
  | case7 c rest newline tab quote backslash other ih =>
    cases eq : unescape rest with
    | error => simp [eq] at h
    | ok others =>
      rw [eq] at h
      cases h
      exact .plain (by grind) (ih eq)

theorem decodes_iff : Decodes cs ds ↔ unescape cs = .ok ds :=
  ⟨unescape_of_decodes, decodes_of_unescape⟩

theorem known_of_decodes (h : Decodes cs ds) : ∀ escape ∈ escapes cs, escape ∈ knownEscapes := by
  induction h with
  | nil => simp [escapes]
  | @plain c cs ds ne _ ih =>
    rw [escapes] <;> simp_all
  | _ _ ih =>
    rw [escapes]
    exact forall_mem_cons.mpr ⟨by decide, ih⟩

end Escapes

section Loading

variable {content label : String} {data : List Datum}

theorem collectData_line (h : '\n' ∉ content.toList) :
    collectData (some label) data [(Instr.ascii content).render.toList] =
      (decodeContent content).map fun text =>
        ⟨label, dataStart + Int32.ofNat data.length * dataStride, text⟩ :: data := by
  rw [ascii_render, collectData_ascii h]
  cases decodeContent content <;> rfl

theorem decodeContent_iff {text : String} :
    decodeContent content = .ok text ↔ Decodes content.toList text.toList := by
  rw [decodeContent, decodes_iff]
  cases unescape content.toList with
  | error => simp
  | ok cs => simp [← String.toList_inj]

end Loading

section Printing

variable {program : Program} {image : Image} {table : Array Variable} {target : Target} {s : State}

/-- Wherever a program prints a string literal with `%s`, its code writes a text and leaves everything
else as it was. -/
def Program.Shows (program : Program) (target : Target) (table : Array Variable) (image : Image)
    (literal : Literal) (text : String) : Prop :=
  ∀ (block node : Node) (format : Literal), block ∈ program.root.blocks → node ∈ block.children →
    node.kind = .print → node.children.map Node.kind = [.literal format, .literal literal] →
    format.content = "%s" →
    ∃ pc last, image.Holds pc (statementCode target table last node) ∧
      ∀ s : State, s.pc = pc → (s.reg .esp).toInt ≤ stackTop.toInt →
        -0x80000000 ≤ (s.reg .esp).toInt - 8 →
        ∃ s', image.Reaches s s' ∧ s'.pc = pc + commandCount (statementCode target table last node) ∧
          s.Resumes s' ∧ s'.output = s.output ++ text ∧ s'.input = s.input

theorem completes_shown {id id₁ id₂ line line₁ line₂ i j : Nat} {format literal : Literal} {text : String}
    (suits : Suits image program.symbols table program.strings)
    (found : program.strings[i]? = some format) (isFormat : format.IsText i)
    (plain : format.content = "%s")
    (found' : program.strings[j]? = some literal) (isText : literal.IsText j)
    (decodes : Decodes literal.content.toList text.toList)
    (low : (s.reg .esp).toInt ≤ stackTop.toInt) (room : -0x80000000 ≤ (s.reg .esp).toInt - 8) :
    (print target table ⟨id, line, .print, [⟨id₁, line₁, .literal format, []⟩,
      ⟨id₂, line₂, .literal literal, []⟩]⟩).Completes image False s fun _ s' =>
        s.Resumes s' ∧ s'.output = s.output ++ text ∧ s'.input = s.input := by
  have characters : literal.characters? = some text.toList := by
    rw [Literal.characters?, unescape_of_decodes decodes]
    rfl
  have formatted : format.characters? = some ['%', 's'] := by
    rw [Literal.characters?, plain]
    rfl
  obtain ⟨datum, labelled, string⟩ := suits.texts j literal _ found' characters
  obtain ⟨datum', labelled', string'⟩ := suits.texts i format _ found formatted
  have word : literal.word? image = some datum.address := by
    rw [Literal.word?, isText.type, isText.label]
    simp [labelled]
  have fits : (Scratch.ofState s).Room False s 2 := .inr (by simpa [Scratch.ofState] using room)
  obtain ⟨_, _, label⟩ := format
  obtain rfl : label = some (textLabel i) := isFormat.label
  simp only [print, reverse_singleton, expressions, expression, bind_pure_unit, call]
  refine Lowered.completes_bind (completes_literal word (Scratch.atop_ofState low)
    (fits.of_le (Nat.le_succ _))) ?_
  rintro _ s₁ ⟨b₁, atop₁, top⟩
  have depicts : Forall₂ (Depicts image) [.text text] b₁.words := by
    rw [top]
    exact .cons (.text (by rw [string, String.ofList_toList])) .nil
  have length : b₁.words.length = 1 := depicts.length_eq.symm
  refine Lowered.completes_emit ((completes_printf labelled' string' rfl depicts atop₁
    (fits.of_le (by rw [length]; rfl)) length).mono ?_)
  rintro s₂ ⟨b₂, atop₂, none⟩
  obtain ⟨esp, ebp, memory⟩ := resumes_of_atop atop₂ none
  exact ⟨⟨esp, ebp, memory⟩, atop₂.output.trans (by simp), atop₂.input⟩

theorem shows_of_decodes {sourceName : Option String} {code : List Instr} {texts : List String}
    {literal : Literal} {text : String} (h : program.WellFormed)
    (generated : Generated target sourceName program table code)
    (loaded : Loaded target table program texts image)
    (suits : Suits image program.symbols table program.strings) (isString : literal.type = .string)
    (decodes : Decodes literal.content.toList text.toList) :
    program.Shows target table image literal text := by
  rintro block ⟨id, line, kind, children⟩ format isScope mem rfl kinds plain
  obtain ⟨reserved, visible, _, laid, statements⟩ := laid_of_generated h generated isScope
  obtain ⟨lowered, _, _⟩ := laid.2 _ mem
  obtain ⟨last, part⟩ := statementCode_infix h generated.laid isScope mem
  obtain ⟨pc, lies⟩ := holds_of_isInfix part
    (Image.holds_append.mp (Image.holds_append.mp loaded.holds).1).2
  refine ⟨pc, last, lies, fun s here low room => ?_⟩
  subst here
  have split := @statementCode_simple target table last ⟨id, line, .print, children⟩ rfl
  have none : commandCount (labelCode last ⟨id, line, .print, children⟩) = 0 := by
    unfold labelCode
    split <;> rfl
  rw [split] at lies ⊢
  rw [commandCount_append, none, Nat.zero_add]
  have lies := (Image.holds_append.mp lies).2
  rw [none] at lies
  cases statements _ mem with
  | simple isSimple =>
    cases isSimple with
    | @print _ _ _ arguments isFormat isArgument =>
      obtain ⟨_, _, i, _, found, isFormat, rfl⟩ := isFormat
      obtain ⟨first, others⟩ := List.cons.inj kinds
      cases first
      obtain ⟨argument, rest, rfl, isLiteral, none⟩ := map_eq_cons_iff.mp others
      obtain rfl := map_eq_nil_iff.mp none
      obtain ⟨value, succeeds⟩ := lowered
      have isExpression := isArgument argument (mem_singleton_self _)
      obtain ⟨id₂, line₂, kind₂, children₂⟩ := argument
      cases isLiteral
      cases isExpression with
      | integer => cases isString
      | decimal => cases isString
      | text found' isText =>
        obtain ⟨s', reaches, pc, shown⟩ := (completes_shown suits found isFormat plain found' isText
          decodes low room value succeeds lies).exists_reaches
        exact ⟨s', reaches, pc, shown⟩

end Printing

/-- String literals survive. A string literal that the scanner finds stands between quotes. What is
written for it can be loaded exactly if it has known escapes only, and then it is loaded with these
escapes replaced and all other characters as they are. An accepted program that prints the literal
with `%s` writes just that. -/
theorem string_survives {source : String} {token : Token} {literal : Literal}
    (scanned : .ok token ∈ scan source) (isText : token.kind = .literal .text)
    (spelled : literal.text = token.text) :
    token.text = "\"" ++ literal.content ++ "\"" ∧
    (∀ label data, (∃ loaded, collectData (some label) data
        [(Instr.ascii literal.content).render.toList] = .ok loaded) ↔
      ∀ escape ∈ escapes literal.content.toList, escape ∈ knownEscapes) ∧
    ∀ text : String,
      (∀ label data, collectData (some label) data [(Instr.ascii literal.content).render.toList] =
          .ok (⟨label, dataStart + Int32.ofNat data.length * dataStride, text⟩ :: data) ↔
        Decodes literal.content.toList text.toList) ∧
      (Decodes literal.content.toList text.toList → literal.type = .string →
        ∀ (printing assembly : String) (config : Config) (program : Program),
          (parseSource printing config.collect).result = .ok program →
          (compile printing config).result = .ok assembly →
          (∀ name ∈ config.sourceName, '\n' ∉ name.toList) → program.strings.size ≤ 0x1000000 →
          (∀ other ∈ program.strings, ∀ escape ∈ escapes other.content.toList,
            escape ∈ knownEscapes) →
          ∃ image, load assembly = .ok image ∧
            program.Shows config.target (config.layout program) image literal text) := by
  have spells := Cursor.spells_of_mem_scan scanned
  rw [isText] at spells
  obtain ⟨body, quotable, eq⟩ : ∃ body, IsQuotable body ∧ token.text.toList = '"' :: (body ++ ['"']) := by
    generalize token.text.toList = cs at spells
    cases spells with
    | text quotable => exact ⟨_, quotable, rfl⟩
  have content : literal.content = String.ofList body := by
    simp [Literal.content, spelled, eq]
  have newline : '\n' ∉ literal.content.toList := by
    rw [content, String.toList_ofList]
    exact quotable.newline_not_mem
  refine ⟨?_, fun label data => ?_, fun text => ⟨fun label data => ?_, ?_⟩⟩
  · rw [← String.toList_inj, eq, content]
    simp
  · rw [collectData_line newline]
    constructor
    · rintro ⟨loaded, eq⟩
      cases decoded : decodeContent literal.content with
      | error => simp [decoded, Except.map] at eq
      | ok text => exact known_of_decodes (decodeContent_iff.mp decoded)
    · intro known
      obtain ⟨ds, decodes⟩ := exists_decodes known
      have decoded : decodeContent literal.content = .ok (String.ofList ds) :=
        decodeContent_iff.mpr (by rwa [String.toList_ofList])
      exact ⟨_, by rw [decoded]; rfl⟩
  · rw [collectData_line newline, ← decodeContent_iff]
    cases decodeContent literal.content <;> simp [Except.map]
  · intro decodes isString printing assembly config program parsed compiled named few known
    have h := wellFormed_of_parseSource parsed
    obtain ⟨generated, _⟩ := generated_of_compile parsed compiled
    obtain ⟨texts, decoded⟩ := exists_texts known
    have count := (length_texts decoded).trans_le few
    exact ⟨_, load_of_compile parsed compiled named decoded, shows_of_decodes h generated
      (loaded_programImage h decoded) (suits_programImage h generated decoded count) isString decodes⟩

/-- Backslashes before the closing quote, and a quote between the quotes. -/
theorem string_survives_quote :
    ∃ (assembly : String) (program : Program) (image : Image) (literal : Literal),
      (compile "10 PRINT \"%s\", \"a\\\"b\\\\\"" {}).result = .ok assembly ∧
      literal ∈ program.strings ∧ literal.content = "a\\\"b\\\\" ∧ load assembly = .ok image ∧
      program.Shows .mingw (Config.layout {} program) image literal "a\"b\\" := by
  generalize hs : "10 PRINT \"%s\", \"a\\\"b\\\\\"" = source
  have evaluated : ((scan source)[4]?.bind fun outcome => outcome.toOption.bind fun token =>
      (compile source {}).result.toOption.bind fun _ =>
      (parseSource source false).result.toOption.bind fun program =>
      program.strings[1]?.map fun literal => (token.kind, decide (literal.text = token.text), literal.type,
        literal.content, program.strings.toList.map Literal.content)) =
      some (.literal .text, true, .string, "a\\\"b\\\\", ["%s", "a\\\"b\\\\"]) := by
    subst hs
    decide +kernel
  obtain ⟨outcome, scanned, evaluated⟩ := Option.bind_eq_some_iff.mp evaluated
  obtain ⟨token, ok, evaluated⟩ := exists_ok_of_bind evaluated
  obtain ⟨assembly, compiled, evaluated⟩ := exists_ok_of_bind evaluated
  obtain ⟨program, parsed, evaluated⟩ := exists_ok_of_bind evaluated
  obtain ⟨literal, found, evaluated⟩ := Option.map_eq_some_iff.mp evaluated
  simp only [Prod.mk.injEq, decide_eq_true_eq] at evaluated
  obtain ⟨isText, spelled, isString, content, contents⟩ := evaluated
  have few : program.strings.size ≤ 0x1000000 := by
    rw [← Array.length_toList, ← length_map Literal.content, contents]
    decide
  have known := known_of_contents contents (by decide)
  have scanned := mem_of_getElem? scanned
  rw [ok] at scanned
  have decodes : Decodes literal.content.toList "a\"b\\".toList := by
    rw [content]
    exact .plain (by decide) (.quote (.plain (by decide) (.backslash .nil)))
  obtain ⟨_, _, survives⟩ := string_survives scanned isText spelled
  obtain ⟨image, loads, shows⟩ := (survives "a\"b\\").2 decodes isString source assembly {} program
    parsed compiled (by simp) few known
  exact ⟨assembly, program, image, literal, compiled, Array.mem_of_getElem? found, content, loads, shows⟩

end LineBasic
