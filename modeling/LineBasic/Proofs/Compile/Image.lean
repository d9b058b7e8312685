import LineBasic.Machine.Run
import LineBasic.Proofs.Compile.Modes
import LineBasic.Proofs.Lower.Legible
import LineBasic.Proofs.Token.Quoted

/-!
The image of a compiled program: its code, and its strings where their labels say.
-/

namespace LineBasic

open List Machine Lower

namespace Machine

variable {pending : Option String} {data : List Datum} {code rest : List Instr}

theorem gather_plain (h : ∀ instr ∈ code, ∀ content, instr ≠ .ascii content) :
    gather pending data code = .ok data := by
  induction code generalizing pending with
  | nil => rfl
  | cons instr code ih =>
    have later := fun {pending : Option String} =>
      @ih pending fun instr mem => h instr (mem_cons_of_mem _ mem)
    cases instr with
    | ascii content => exact absurd rfl (h _ (mem_cons_self ..) content)
    | label name => rw [gather, later]
    | _ => rw [gather, later] <;> simp

/-- The label and the characters of a string, as they stand in code. -/
def textCode (literal : Literal) : List Instr :=
  match literal.label with
  | some label => [.label label, .ascii literal.content]
  | none => []

theorem header_eq (target : Target) (sourceName : Option String) (strings : List Literal) :
    header target sourceName strings = (sourceName.map Instr.file).toList ++
      if (strings.flatMap textCode).isEmpty then []
      else .section target.rodata :: strings.flatMap textCode := rfl

def datum (i : Nat) (text : String) : Datum :=
  ⟨textLabel i, dataStart + Int32.ofNat i * dataStride, text⟩

/-- Strings in memory, the last one first. -/
def dataOf (start : Nat) (texts : List String) : List Datum :=
  ((texts.zipIdx start).map fun (text, i) => datum i text).reverse

theorem gather_texts {literals : List Literal}
    (labels : ∀ j literal, literals[j]? = some literal →
      literal.label = some (textLabel (data.length + j))) :
    gather none data (literals.flatMap textCode ++ rest) = (do
      let texts ← literals.mapM fun literal => decodeContent literal.content
      gather none (dataOf data.length texts ++ data) rest) := by
  induction literals generalizing data with
  | nil => rfl
  | cons literal literals ih =>
    have first : literal.label = some (textLabel data.length) := by simpa using labels 0 literal rfl
    have texts : textCode literal = [.label (textLabel data.length), .ascii literal.content] := by
      rw [textCode, first]
    rw [flatMap_cons, texts, mapM_cons]
    simp only [cons_append, nil_append, gather]
    cases decoded : decodeContent literal.content with
    | error => rfl
    | ok text =>
      have later := @ih (datum data.length text :: data) fun j other found => by
        have := labels (j + 1) other (by simpa using found)
        rw [this, length_cons]
        congr 2
        omega
      simp only [bind, Except.bind]
      rw [show (⟨textLabel data.length, dataStart + Int32.ofNat data.length * dataStride, text⟩ : Datum)
        = datum data.length text from rfl, later]
      simp only [bind, Except.bind]
      cases literals.mapM fun literal => decodeContent literal.content with
      | error => rfl
      | ok texts => simp [dataOf, zipIdx_cons, pure, Except.pure]

theorem mem_dataOf {texts : List String} {d : Datum} :
    d ∈ dataOf 0 texts ↔ ∃ i text, texts[i]? = some text ∧ d = datum i text := by
  simp only [dataOf, mem_reverse, mem_map, Prod.exists, mk_mem_zipIdx_iff_getElem?]
  constructor
  · rintro ⟨text, i, found, rfl⟩
    exact ⟨i, text, found, rfl⟩
  · rintro ⟨i, text, found, rfl⟩
    exact ⟨text, i, found, rfl⟩

theorem textLabel_eq (n : Nat) : textLabel n = tagged "LC" n "" := by
  rw [tagged, String.append_empty]
  rfl

theorem textLabel_inj {i j : Nat} (h : textLabel i = textLabel j) : i = j := by
  have isTag : IsTag "LC" "" := by decide
  rw [textLabel_eq, textLabel_eq] at h
  exact (tagged_inj isTag isTag h).2.1

theorem find?_dataOf {texts : List String} {i : Nat} {text : String} (found : texts[i]? = some text)
    {p : Datum → Bool} (holds : p (datum i text))
    (only : ∀ j text', texts[j]? = some text' → p (datum j text') → j = i) :
    (dataOf 0 texts).find? p = some (datum i text) := by
  cases first : (dataOf 0 texts).find? p with
  | none =>
    have mem := mem_dataOf.mpr ⟨i, text, found, rfl⟩
    exact absurd holds (by simpa using find?_eq_none.mp first _ mem)
  | some other =>
    obtain ⟨j, text', found', rfl⟩ := mem_dataOf.mp (mem_of_find?_eq_some first)
    cases only j text' found' (find?_some first)
    rw [found] at found'
    cases found'
    rfl

theorem find?_label {texts : List String} {i : Nat} {text : String} (found : texts[i]? = some text) :
    (dataOf 0 texts).find? (·.label == textLabel i) = some (datum i text) := by
  refine find?_dataOf found (beq_iff_eq.mpr rfl) fun j _ _ same => ?_
  exact textLabel_inj (beq_iff_eq.mp same)

theorem address_inj {i j : Nat} (hi : i < 0x1000000) (hj : j < 0x1000000)
    (h : dataStart + Int32.ofNat i * dataStride = dataStart + Int32.ofNat j * dataStride) :
    i = j := by
  have words := congrArg BitVec.toNat (Int32.toBitVec_inj.mpr h)
  simp only [Int32.toBitVec_add, Int32.toBitVec_mul, dataStart, dataStride] at words
  simp at words
  omega

theorem find?_address {texts : List String} {i : Nat} {text : String}
    (found : texts[i]? = some text) (few : texts.length ≤ 0x1000000) :
    (dataOf 0 texts).find? (·.address == (datum i text).address) = some (datum i text) := by
  have bound {j : Nat} {text' : String} (found : texts[j]? = some text') : j < 0x1000000 := by
    obtain ⟨lt, _⟩ := List.getElem?_eq_some_iff.mp found
    omega
  refine find?_dataOf found (beq_iff_eq.mpr rfl) fun j _ found' same => ?_
  exact address_inj (bound found') (bound found) (beq_iff_eq.mp same)

theorem gather_header {target : Target} {sourceName : Option String} {strings : List Literal}
    (labels : ∀ j literal, strings[j]? = some literal → literal.label = some (textLabel j)) :
    gather none [] (header target sourceName strings ++ rest) = (do
      let texts ← strings.mapM fun literal => decodeContent literal.content
      gather none (dataOf 0 texts) rest) := by
  have texts := @gather_texts [] rest strings (by simpa using labels)
  simp only [length_nil, append_nil] at texts
  have named (code : List Instr) :
      gather none [] ((sourceName.map Instr.file).toList ++ code) = gather none [] code := by
    cases sourceName with
    | none => rfl
    | some name =>
      show gather none [] (Instr.file name :: code) = _
      rw [gather] <;> simp
  rw [← texts, header_eq, append_assoc, named]
  split
  next empty => rw [List.isEmpty_iff.mp empty]
  next =>
    rw [cons_append, gather]
    all_goals simp

end Machine

variable {program : Program} {target : Target} {sourceName : Option String} {table : Array Variable}

def mainCode (target : Target) (table : Array Variable) (program : Program) : List Instr :=
  [.text, .globl (target.symbol "main"), .label (target.symbol "main")] ++
    prologue target (frameSize table program.vars) ++
    statementsCode target table none program.root.children ++
    [.mov (.imm 0) (.reg .eax), .leave, .ret]

theorem programCode_eq : programCode target sourceName table program =
    header target sourceName program.strings.toList ++ mainCode target table program := by
  simp only [programCode, mainCode, Program.vars, append_assoc]

theorem newline_content {literal : Literal} {i : Nat} (h : literal.IsText i) :
    '\n' ∉ literal.content.toList := by
  obtain ⟨body, eq, newline⟩ := h.quoted
  have content : literal.content = String.ofList body := by
    simp [Literal.content, eq]
  rw [content, String.toList_ofList]
  exact newline

theorem labels_of_wellFormed (h : program.WellFormed) (j : Nat) (literal : Literal)
    (found : program.strings.toList[j]? = some literal) : literal.label = some (textLabel j) :=
  (h.texts j literal (by simpa using found)).label

theorem legible_header (h : program.WellFormed) (named : ∀ name ∈ sourceName, '\n' ∉ name.toList) :
    ∀ instr ∈ header target sourceName program.strings.toList, instr.Legible := by
  have texts : ∀ instr ∈ program.strings.toList.flatMap textCode, instr.Legible := by
    intro instr mem
    obtain ⟨literal, inside, mem⟩ := mem_flatMap.mp mem
    obtain ⟨j, found⟩ := getElem?_of_mem inside
    have isText := h.texts j literal (by simpa using found)
    rw [textCode, isText.label] at mem
    simp only [mem_cons, not_mem_nil, or_false] at mem
    rcases mem with rfl | rfl
    · exact isName_textLabel j
    · exact newline_content isText
  intro instr mem
  rcases mem_append.mp mem with mem | mem
  · obtain ⟨name, eq, rfl⟩ := Option.map_eq_some_iff.mp (Option.mem_toList.mp mem)
    exact named name eq
  · split at mem
    next => cases mem
    next =>
      rcases mem_cons.mp mem with rfl | mem
      · cases target
        · exact ⟨⟨'.', _, rfl, by decide⟩, ⟨'"', ".rdata,\"dr".toList, rfl, by decide, by decide⟩,
            by decide⟩
        · exact framed_of_isWord (by decide)
      · exact texts instr mem

theorem forall₂_of_mapM {α β ε : Type} {f : α → Except ε β} {xs : List α} {ys : List β}
    (h : xs.mapM f = .ok ys) : Forall₂ (fun x y => f x = .ok y) xs ys := by
  induction xs generalizing ys with
  | nil =>
    cases h
    exact .nil
  | cons first xs ih =>
    rw [mapM_cons] at h
    cases read : f first with
    | error =>
      rw [read] at h
      cases h
    | ok y =>
      rw [read] at h
      cases reads : xs.mapM f with
      | error =>
        simp only [bind, Except.bind, reads] at h
        cases h
      | ok rest =>
        simp only [bind, Except.bind, reads] at h
        cases h
        exact .cons read (ih reads)

/-- The strings of a program, with the escapes in them read. -/
def Program.texts (program : Program) : Except LoadFault (List String) :=
  program.strings.toList.mapM fun literal => decodeContent literal.content

theorem labelled_texts {texts : List String} (h : program.texts = .ok texts) :
    Labelled (dataOf 0 texts) program.strings := by
  intro i literal found
  have inside : i < program.strings.toList.length := by
    simpa using (Array.getElem?_eq_some_iff.mp found).1
  have inside : i < texts.length := (forall₂_of_mapM h).length_eq ▸ inside
  rw [find?_label (getElem?_eq_getElem inside)]
  rfl

theorem good_mainCode {data : List Datum} (h : program.WellFormed)
    (labelled : Labelled data program.strings) :
    ∀ instr ∈ mainCode target table program, instr.IsGood data := by
  have main := isName_symbol target (.inl rfl : "main" = "main" ∨ _)
  have head : ∀ instr ∈ [.text, .globl (target.symbol "main"), .label (target.symbol "main")],
      Instr.IsGood data instr := by
    have text : Instr.text.IsGood data := ⟨by simp [Instr.Legible, Instr.operands],
      by simp [Instr.operands], by simp⟩
    have globl : (Instr.globl (target.symbol "main")).IsGood data := ⟨main, by simp [Instr.operands],
      by simp⟩
    exact good_cons text (good_cons globl (forall_mem_singleton.mpr (isGood_label main)))
  have start : ∀ instr ∈ prologue target (frameSize table program.vars), instr.IsGood data := by
    refine good_append (good_append (good_of_plain rfl) (good_grow _)) ?_
    split
    next =>
      have called : (Instr.call "___main").IsGood data :=
        isGood_transfer rfl ⟨all_eq_true.mp (by decide), ⟨_, _, rfl, by decide⟩⟩
      exact forall_mem_singleton.mpr called
    next => exact fun _ mem => (not_mem_nil mem).elim
  have body := @good_statements data _ table _ _ program.root.children target none h.statements
    labelled
  exact good_append (good_append (good_append head start) body) (good_of_plain rfl)

theorem labelNames_texts {strings : List Literal} {start : Nat}
    (labels : ∀ j literal, strings[j]? = some literal →
      literal.label = some (textLabel (start + j))) :
    labelNames (strings.flatMap textCode) =
      tagNames [("LC", "")] (List.range' start strings.length) := by
  induction strings generalizing start with
  | nil => rfl
  | cons literal strings ih =>
    have first : literal.label = some (textLabel start) := by simpa using labels 0 literal rfl
    have rest := @ih (start + 1) fun j other found => by
      have := labels (j + 1) other (by simpa using found)
      rw [this]
      congr 2
      omega
    have texts : textCode literal = [.label (textLabel start), .ascii literal.content] := by
      rw [textCode, first]
    rw [flatMap_cons, texts, length_cons, range'_succ, textLabel_eq]
    exact congrArg (tagged "LC" start "" :: ·) rest

theorem labelNames_header (h : program.WellFormed) :
    labelNames (header target sourceName program.strings.toList) =
      tagNames [("LC", "")] (List.range program.strings.size) := by
  have texts := @labelNames_texts program.strings.toList 0 (by simpa using labels_of_wellFormed h)
  have named : labelNames (sourceName.map Instr.file).toList = [] := by
    cases sourceName <;> rfl
  rw [range_eq_range', ← Array.length_toList, ← texts, header_eq, labelNames,
    filterMap_append, ← labelNames, named, nil_append]
  split
  next empty =>
    rw [List.isEmpty_iff.mp empty]
    rfl
  next => rfl

theorem labelCount_programCode_le (h : program.WellFormed) (name : String) :
    labelCount name (programCode target sourceName table program) ≤
      (programNames (target.symbol "main") (List.range program.strings.size)
        (startLines (Node.sitesAll [program.root.id] none program.root.children))
        (Node.idsAll program.root.children)).count name := by
  have body := (@composed_body _ table _ _ _ _ target none h.statements
    (fun _ inside => mem_map_of_mem inside) [program.root.id]).labels name
  have head : labelCount name (header target sourceName program.strings.toList) =
      (tagNames [("LC", "")] (List.range program.strings.size)).count name := by
    rw [labelCount, labelNames_header h]
  have start : labelCount name ([.text, .globl (target.symbol "main"),
      .label (target.symbol "main")] ++ prologue target (frameSize table program.vars)) =
        [target.symbol "main"].count name := by
    unfold prologue grow
    split <;> split <;> rfl
  have last : labelCount name [.mov (.imm 0) (.reg .eax), .leave, .ret] = 0 := rfl
  have names (texts lines ids : List Nat) : programNames (target.symbol "main") texts lines ids =
      tagNames [("LC", "")] texts ++
        ([target.symbol "main"] ++ (tagNames lineTags lines ++ tagNames powerTags ids)) := rfl
  rw [programCode_eq, mainCode, names, labelCount_append, labelCount_append, labelCount_append,
    head, start, last, count_append, count_append, count_append]
  unfold lineCount powerCount at body
  omega

theorem nodup_labelNames (h : program.WellFormed) :
    (labelNames (programCode target sourceName table program)).Nodup := by
  have ids : (Node.idsAll program.root.children).Nodup := by
    have := h.ids
    rw [Node.ids_eq] at this
    exact (nodup_cons.mp this).2
  have names := nodup_programNames (plain_main target) (@nodup_range program.strings.size) h.runs ids
  refine nodup_iff_count_le_one.mpr fun name => ?_
  exact Nat.le_trans (labelCount_programCode_le h name) (nodup_iff_count_le_one.mp names name)

theorem not_mem_labelNames (h : program.WellFormed) (other : target.symbol "main" ≠ "_main") :
    "_main" ∉ labelNames (programCode target sourceName table program) := by
  have absent : "_main" ∉ programNames (target.symbol "main") (List.range program.strings.size)
      (startLines (Node.sitesAll [program.root.id] none program.root.children))
      (Node.idsAll program.root.children) := by
    have plain : ∀ c ∈ "_main".toList, c.isDigit = false := plain_main .mingw
    simp [programNames, not_mem_tagNames plain, Ne.symm other]
  intro mem
  have count := @labelCount_programCode_le program target sourceName table h "_main"
  rw [count_eq_zero_of_not_mem absent] at count
  exact absurd (count_pos_iff.mpr mem) (by unfold labelCount at count; omega)

/-- A program that is all in an image: it starts at the first command, and its strings are there. -/
structure Loaded (target : Target) (table : Array Variable) (program : Program)
    (texts : List String) (image : Image) : Prop where
  entry : image.entry? = some 0
  holds : image.Holds 0 (prologue target (frameSize table program.vars) ++
    statementsCode target table none program.root.children ++
    [.mov (.imm 0) (.reg .eax), .leave, .ret])
  decoded : program.texts = .ok texts
  data : image.data = dataOf 0 texts

theorem commandCount_header :
    commandCount (header target sourceName program.strings.toList) = 0 := by
  have texts (strings : List Literal) : commandCount (strings.flatMap textCode) = 0 := by
    induction strings with
    | nil => rfl
    | cons literal strings ih =>
      rw [flatMap_cons, commandCount_append, ih, textCode]
      split <;> rfl
  have named : commandCount (sourceName.map Instr.file).toList = 0 := by
    cases sourceName <;> rfl
  rw [header_eq, commandCount_append, named]
  split
  next => rfl
  next => exact (Nat.zero_add _).trans (texts program.strings.toList)

theorem not_command_of_header {instr : Instr}
    (mem : instr ∈ header target sourceName program.strings.toList) : instr.isCommand = false :=
  Bool.eq_false_iff.mpr (countP_eq_zero.mp commandCount_header instr mem)

theorem entry_of_main {image : Image} (h : program.WellFormed)
    (labels : image.labels.map Prod.fst =
      (labelNames (programCode target sourceName table program)).reverse)
    (main : image.labels.lookup (target.symbol "main") = some 0) : image.entry? = some 0 := by
  cases target with
  | mingw =>
    have main : image.labels.lookup "_main" = some 0 := main
    rw [Image.entry?, main]
    rfl
  | elf =>
    have main : image.labels.lookup "main" = some 0 := main
    have absent : image.labels.lookup "_main" = none := by
      refine lookup_eq_none_iff.mpr fun entry mem => ?_
      have inside : entry.1 ∈ labelNames (programCode .elf sourceName table program) := by
        rw [← mem_reverse, ← labels]
        exact mem_map_of_mem mem
      have ne : entry.1 ≠ "_main" := fun eq => not_mem_labelNames h (by decide) (eq ▸ inside)
      simpa using Ne.symm ne
    rw [Image.entry?, absent, main]
    rfl

/-- The code does not depend on what the strings are, only on how many there are. -/
theorem labelled_contents (program : Program) :
    Labelled (dataOf 0 (program.strings.toList.map Literal.content)) program.strings := by
  intro i literal found
  have text : (program.strings.toList.map Literal.content)[i]? = some literal.content := by
    simp [found]
  rw [find?_label text]
  rfl

theorem legible_programCode (h : program.WellFormed)
    (named : ∀ name ∈ sourceName, '\n' ∉ name.toList) :
    ∀ instr ∈ programCode target sourceName table program, instr.Legible := by
  rw [programCode_eq]
  intro instr mem
  rcases mem_append.mp mem with mem | mem
  · exact legible_header h named instr mem
  · exact (good_mainCode h (labelled_contents program) instr mem).legible

theorem gather_programCode (h : program.WellFormed) :
    gather none [] (programCode target sourceName table program) = program.texts.map (dataOf 0) := by
  have plain (data : List Datum) : gather none data (mainCode target table program) = .ok data :=
    gather_plain fun instr mem content => (good_mainCode h (labelled_contents program) instr mem).notText content
  rw [programCode_eq, gather_header (labels_of_wellFormed h)]
  simp only [plain]
  rfl

theorem resolved_programCode {texts : List String} (h : program.WellFormed)
    (decoded : program.texts = .ok texts) :
    ∀ instr ∈ programCode target sourceName table program,
      instr.isCommand → (actionOf (dataOf 0 texts) instr).isSome := by
  have none_of_header : ∀ instr ∈ header target sourceName program.strings.toList,
      ¬ instr.isCommand := by
    have count := @commandCount_header program target sourceName
    rw [commandCount, countP_eq_zero] at count
    exact count
  rw [programCode_eq]
  intro instr mem isCommand
  rcases mem_append.mp mem with mem | mem
  · exact absurd isCommand (none_of_header instr mem)
  · exact actionOf_isSome (good_mainCode h (labelled_texts decoded) instr mem) isCommand

theorem holds_main {image : Image}
    (h : image.Holds 0 (programCode target sourceName table program)) :
    image.labels.lookup (target.symbol "main") = some 0 ∧
      image.Holds 0 (prologue target (frameSize table program.vars) ++
        statementsCode target table none program.root.children ++
        [.mov (.imm 0) (.reg .eax), .leave, .ret]) := by
  rw [programCode_eq, Image.holds_append, commandCount_header, mainCode, append_assoc,
    append_assoc, ← append_assoc (prologue _ _)] at h
  obtain ⟨-, -, -, -, -, main, -, body⟩ := h
  exact ⟨main _ rfl, body⟩

/-- The image of a program with some texts as its strings. -/
def programImage (target : Target) (sourceName : Option String) (table : Array Variable)
    (program : Program) (texts : List String) : Image :=
  Image.extend { data := dataOf 0 texts } (programCode target sourceName table program)

theorem loaded_programImage {texts : List String} (h : program.WellFormed)
    (decoded : program.texts = .ok texts) :
    Loaded target table program texts (programImage target sourceName table program texts) := by
  have resolved := @resolved_programCode program target sourceName table texts h decoded
  have distinct := @nodup_labelNames program target sourceName table h
  have names : (programImage target sourceName table program texts).labels.map Prod.fst =
      (labelNames (programCode target sourceName table program)).reverse := by
    simp [programImage, Image.extend, map_fst_labelsFrom]
  obtain ⟨main, body⟩ := holds_main (Image.holds_extend resolved distinct)
  exact ⟨entry_of_main h names main, body, decoded, rfl⟩

theorem load_programCode {texts : List String} (h : program.WellFormed)
    (named : ∀ name ∈ sourceName, '\n' ∉ name.toList) (decoded : program.texts = .ok texts) :
    load (assemble (programCode target sourceName table program)) =
      .ok (programImage target sourceName table program texts) := by
  have gathered : gather none [] (programCode target sourceName table program) =
      .ok (dataOf 0 texts) := by
    rw [gather_programCode h, decoded]
    rfl
  exact load_assemble (legible_programCode h named) gathered (resolved_programCode h decoded)
    (nodup_labelNames h)

theorem loaded_of_load {image : Image} (h : program.WellFormed)
    (named : ∀ name ∈ sourceName, '\n' ∉ name.toList)
    (loads : load (assemble (programCode target sourceName table program)) = .ok image) :
    ∃ texts, Loaded target table program texts image := by
  obtain ⟨data, gathered⟩ := gather_of_load (legible_programCode h named) loads
  rw [gather_programCode h] at gathered
  cases decoded : program.texts with
  | error =>
    rw [decoded] at gathered
    cases gathered
  | ok texts =>
    rw [load_programCode h named decoded] at loads
    cases loads
    exact ⟨texts, loaded_programImage h decoded⟩

section Compile

variable {source assembly : String} {config : Config}

/-- The variables of a program with the addresses that its code uses. -/
def Config.layout (config : Config) (program : Program) : Array Variable :=
  (({ target := config.target, sourceName := config.sourceName } : Generator).compile program).symbols

theorem parsed_of_compile (compiled : (compile source config).result = .ok assembly) :
    ∃ program, (parseSource source config.collect).result = .ok program := by
  cases parsed : (parseSource source config.collect).result with
  | ok program => exact ⟨program, rfl⟩
  | error d =>
    rw [result_compile_of_faults config parsed] at compiled
    cases compiled

def Config.code (config : Config) (program : Program) : List Instr :=
  (({ target := config.target, sourceName := config.sourceName } : Generator).compile
    program).generator.code.toList

/-- A source is accepted if the generator takes its tree, and its assembly is what that emits. -/
theorem accepted_of_compile (parsed : (parseSource source config.collect).result = .ok program)
    (compiled : (compile source config).result = .ok assembly) :
    (({ target := config.target, sourceName := config.sourceName } : Generator).compile
        program).result = .ok () ∧ assembly = assemble (config.code program) := by
  have generates : (generate config program).result = .ok assembly :=
    (result_compile_of_parsed config parsed).symm.trans compiled
  unfold generate at generates
  simp only at generates
  split at generates
  next accepted =>
    cases generates
    exact ⟨accepted, rfl⟩
  next => cases generates

theorem generated_of_compile (parsed : (parseSource source config.collect).result = .ok program)
    (compiled : (compile source config).result = .ok assembly) :
    Generated config.target config.sourceName program (config.layout program)
        (programCode config.target config.sourceName (config.layout program) program) ∧
      assembly = assemble (programCode config.target config.sourceName (config.layout program)
        program) := by
  obtain ⟨accepted, assembled⟩ := accepted_of_compile parsed compiled
  have generated := Generator.generated (wellFormed_of_parseSource parsed) accepted
  have code := generated.code
  rw [code] at generated
  exact ⟨generated, assembled.trans (congrArg assemble code)⟩

end Compile

section Generated

variable {code : List Instr}

theorem mem_owned (h : program.WellFormed) {n : Nat} {v : Variable}
    (found : program.symbols[n]? = some v) : n ∈ program.root.owned :=
  h.owned.mem_iff.mpr (mem_range.mpr (Array.getElem?_eq_some_iff.mp found).1)

section

variable (h : program.WellFormed) (generated : Generated target sourceName program table code)

include h generated

theorem extends_of_generated :
    Node.Extends program.symbols table program.strings program.strings := by
  refine ⟨fun n v found => ?_, fun _ _ found => found⟩
  obtain ⟨v', address, found', _, placed⟩ := generated.placed.placed n (mem_owned h found)
  cases found.symm.trans found'
  exact ⟨_, placed, rfl⟩

theorem count_pos_of_generated (n : Nat) (v : Variable)
    (found : table[n]? = some v) : 0 < Shape.count v.dims := by
  have positive (dims : List Nat) (h : ∀ dim ∈ dims, 0 < dim) : 0 < Shape.count dims := by
    induction dims with
    | nil => exact Nat.one_pos
    | cons dim dims ih =>
      exact Nat.mul_pos (h dim (mem_cons_self ..))
        (ih fun other mem => h other (mem_cons_of_mem _ mem))
  by_cases mem : n ∈ program.root.owned
  · obtain ⟨v', address, found', _, placed⟩ := generated.placed.placed n mem
    cases found.symm.trans placed
    exact positive v'.dims (h.declared n v' found').positive
  · have kept := generated.placed.kept n mem
    exact positive v.dims (h.declared n v (kept ▸ found)).positive

theorem statements_of_generated :
    ∀ node ∈ program.root.children, node.IsStatement table program.strings program.vars :=
  fun node mem => (h.statements node mem).mono (extends_of_generated h generated)
    (Subset.refl _)

end

end Generated

end LineBasic
