import LineBasic.Proofs.Machine.Load

/-!
The image of code that was written as text: its commands, the places of its labels and its strings.
-/

namespace LineBasic

open List

open Text (IsLine isBlank)

def Instr.name? : Instr → Option String
  | label name => some name
  | _ => none

namespace Machine

/-- The line of a directive: it starts with a dot and is no string. -/
structure IsDirective (cs : List Char) : Prop where
  framed : Framed cs
  dot : cs.head? = some '.'
  ascii : ".ascii".toList.isPrefixOf? cs = none

theorem framed_quoted {before inner : List Char} {c : Char} (hc : isBlank c = false)
    (hb : '\n' ∉ c :: before) (hi : '\n' ∉ inner) : Framed (c :: before ++ inner ++ ['"']) where
  first := ⟨c, _, rfl, hc⟩
  last := ⟨'"', c :: before ++ inner, rfl, by decide, by decide⟩
  newline := by
    simp only [mem_append, not_or]
    exact ⟨⟨hb, hi⟩, by decide⟩

theorem directive_render {instr : Instr} (legible : instr.Legible) (command : instr.isCommand = false)
    (label : instr.name? = none) (ascii : ∀ content, instr ≠ .ascii content) :
    ∃ cs, instr.render.toList = '\t' :: cs ∧ IsDirective cs := by
  cases instr with
  | file name =>
    have eq : (Instr.file name).render.toList =
        '\t' :: (".file\t\"".toList ++ name.toList ++ ['"']) := by
      simp only [Instr.render, String.toList_append]
      rfl
    exact ⟨_, eq, framed_quoted (by decide) (by decide) legible, rfl, rfl⟩
  | «section» name =>
    have eq : (Instr.section name).render.toList = '\t' :: (".section".toList ++ [' '] ++ name.toList) := by
      simp only [Instr.render, String.toList_append]
      rfl
    have first : Framed ".section".toList := framed_of_isWord (by decide)
    exact ⟨_, eq, first.append legible (by decide), rfl, rfl⟩
  | text =>
    have eq : Instr.text.render.toList = '\t' :: ".text".toList := rfl
    exact ⟨_, eq, framed_of_isWord (by decide), rfl, rfl⟩
  | globl symbol =>
    have eq : (Instr.globl symbol).render.toList = '\t' :: (".globl".toList ++ ['\t'] ++ symbol.toList) := by
      simp only [Instr.render, String.toList_append]
      rfl
    have first : Framed ".globl".toList := framed_of_isWord (by decide)
    exact ⟨_, eq, first.append (framed_of_isWord legible.isWord) (by decide), rfl, rfl⟩
  | ascii content => exact absurd rfl (ascii content)
  | label => cases label
  | _ => cases command

/-- What is written for a string, without the tab before it. -/
def asciiLine (content : String) : List Char :=
  ['.', 'a', 's', 'c', 'i', 'i', ' ', '"'] ++ content.toList ++ ['\\', '0', '"']

theorem label_render (name : String) :
    (Instr.label name).render.toList = name.toList ++ [':'] := by
  simp only [Instr.render, String.toList_append]
  rfl

theorem ascii_render (content : String) :
    (Instr.ascii content).render.toList = '\t' :: asciiLine content := by
  have first : (toString "\t.ascii \"").toList =
      ['\t', '.', 'a', 's', 'c', 'i', 'i', ' ', '"'] := by decide
  have last : (toString "\\0\"").toList = ['\\', '0', '"'] := by decide
  simp only [Instr.render, String.toList_append, first, last]
  rfl

theorem framed_ascii {content : String} (h : '\n' ∉ content.toList) : Framed (asciiLine content) := by
  have framed := @framed_quoted ['a', 's', 'c', 'i', 'i', ' ', '"'] (content.toList ++ ['\\', '0'])
    '.' (by decide) (by decide) (by simp [h])
  simpa [asciiLine] using framed

def decodeContent (content : String) : Except LoadFault String :=
  match unescape content.toList with
  | .ok cs => .ok (String.ofList cs)
  | .error escape =>
    .error (.unsupportedEscape escape (String.ofList ('"' :: content.toList ++ ['\\', '0', '"'])))

theorem decodeString_eq (content : String) :
    decodeString ('"' :: content.toList ++ ['\\', '0', '"']) = decodeContent content := by
  have opened : ['"'].isPrefixOf? ('"' :: content.toList ++ ['\\', '0', '"']) =
      some (content.toList ++ ['\\', '0', '"']) := isPrefixOf?_eq_some_iff_append_eq.mpr rfl
  have closed : ['"'].isSuffixOf? (content.toList ++ ['\\', '0', '"']) =
      some (content.toList ++ ['\\', '0']) :=
    isSuffixOf?_eq_some_iff_append_eq.mpr (append_assoc _ _ _)
  have quotes : (['"'].isPrefixOf? ('"' :: content.toList ++ ['\\', '0', '"'])).bind
      (['"'].isSuffixOf? ·) = some (content.toList ++ ['\\', '0']) := by
    rw [opened, Option.bind_some, closed]
  have zero : ['\\', '0'].isSuffixOf? (content.toList ++ ['\\', '0']) = some content.toList :=
    isSuffixOf?_eq_some_iff_append_eq.mpr rfl
  unfold decodeString decodeContent
  rewrite [quotes]
  dsimp only
  rewrite [zero]
  rfl

section Collect

variable {pending : Option String} {data : List Datum} {lines : List (List Char)} {cs : List Char}

theorem collectData_directive (h : IsDirective cs) :
    collectData pending data (('\t' :: cs) :: lines) = collectData none data lines := by
  have nonempty : cs.isEmpty = false := by
    obtain ⟨c, rest, rfl, _⟩ := h.framed.first
    rfl
  rw [collectData]
  simp only [h.framed.trim_tab, h.framed.label?, h.ascii, nonempty]
  rfl

theorem collectData_code (h : IsCode cs) :
    collectData pending data (('\t' :: cs) :: lines) = collectData none data lines := by
  obtain ⟨c, rest, rfl, _⟩ := h.framed.first
  have ascii : ".ascii".toList.isPrefixOf? (c :: rest) = none := by
    rw [Option.eq_none_iff_forall_ne_some]
    intro after found
    have eq := isPrefixOf?_eq_some_iff_append_eq.mp found
    have first : '.' = c := (List.cons.inj eq).1
    exact h.dot (by rw [← first, head?_cons])
  rw [collectData]
  simp only [h.framed.trim_tab, h.framed.label?, ascii]
  rfl

theorem label?_name {name : String} (h : IsName name) :
    Text.trim (name.toList ++ [':']) = name.toList ++ [':'] ∧
      label? (name.toList ++ [':']) = some name := by
  obtain ⟨c, rest, eq, hc⟩ := (framed_of_isWord h.isWord).first
  constructor
  · refine Text.trim_eq_self ?_ ?_
    · rw [eq]
      simpa using hc
    · rw [getLast?_concat]
      intro d mem
      cases mem
      decide
  · have suffix : [':'].isSuffixOf? (name.toList ++ [':']) = some name.toList :=
      isSuffixOf?_eq_some_iff_append_eq.mpr rfl
    rw [label?, suffix, Option.map_some, String.ofList_toList]

theorem collectData_label {name : String} (h : IsName name) :
    collectData pending data ((name.toList ++ [':']) :: lines) = collectData (some name) data lines := by
  obtain ⟨trimmed, label⟩ := label?_name h
  rw [collectData]
  simp only [trimmed, label]

theorem collectData_ascii {content label : String} (h : '\n' ∉ content.toList) :
    collectData (some label) data (('\t' :: asciiLine content) :: lines) = (do
      let text ← decodeContent content
      collectData none
        (⟨label, dataStart + Int32.ofNat data.length * dataStride, text⟩ :: data) lines) := by
  have framed := framed_ascii h
  have ascii : ".ascii".toList.isPrefixOf? (asciiLine content) =
      some (' ' :: '"' :: (content.toList ++ ['\\', '0', '"'])) := rfl
  have quoted : Text.trim (' ' :: '"' :: (content.toList ++ ['\\', '0', '"'])) =
      '"' :: content.toList ++ ['\\', '0', '"'] := by
    rw [Text.trim_cons (by decide)]
    refine Text.trim_eq_self (by simp; decide) ?_
    have last : '"' :: (content.toList ++ ['\\', '0', '"']) =
        '"' :: (content.toList ++ ['\\', '0']) ++ ['"'] := by simp
    rw [last, getLast?_concat]
    intro d mem
    cases mem
    decide
  rw [collectData]
  simp only [framed.trim_tab, framed.label?, ascii, quoted, decodeString_eq]

end Collect

/-- The strings of some code, the last one first. A string belongs to the label right before it. -/
def gather : Option String → List Datum → List Instr → Except LoadFault (List Datum)
  | _, data, [] => .ok data
  | _, data, .label name :: code => gather (some name) data code
  | some label, data, .ascii content :: code => do
    let text ← decodeContent content
    gather none (⟨label, dataStart + Int32.ofNat data.length * dataStride, text⟩ :: data) code
  | none, _, .ascii content :: _ =>
    .error (.stringWithoutLabel (Instr.ascii content).render)
  | _, data, _ :: code => gather none data code

theorem instr_cases (instr : Instr) (legible : instr.Legible) :
    (∃ name, instr = .label name ∧ IsName name) ∨
    (∃ content, instr = .ascii content ∧ '\n' ∉ content.toList) ∨
    (instr.name? = none ∧ (∀ content, instr ≠ .ascii content) ∧ instr.isCommand = true) ∨
    (instr.name? = none ∧ (∀ content, instr ≠ .ascii content) ∧ instr.isCommand = false) := by
  cases instr with
  | label name => exact .inl ⟨name, rfl, legible⟩
  | ascii content => exact .inr (.inl ⟨content, rfl, legible⟩)
  | file | «section» | text | globl => exact .inr (.inr (.inr ⟨rfl, by simp, rfl⟩))
  | _ => exact .inr (.inr (.inl ⟨rfl, by simp, rfl⟩))

theorem collectData_render {pending : Option String} {data : List Datum} {code : List Instr}
    (legible : ∀ instr ∈ code, instr.Legible) :
    collectData pending data (code.map fun instr => instr.render.toList) =
      gather pending data code := by
  induction code generalizing pending data with
  | nil => rfl
  | cons instr code ih =>
    have ih {pending : Option String} {data : List Datum} :=
      @ih pending data fun instr mem => legible instr (mem_cons_of_mem _ mem)
    have first := legible instr (mem_cons_self ..)
    rw [map_cons]
    rcases instr_cases instr first with ⟨name, rfl, isName⟩ | ⟨content, rfl, newline⟩ |
      ⟨label, ascii, isCommand⟩ | ⟨label, ascii, isCommand⟩
    · rw [label_render, collectData_label isName, ih, gather]
    · rw [ascii_render]
      cases pending with
      | some label =>
        rw [collectData_ascii newline, gather]
        simp only [ih]
      | none =>
        have framed := framed_ascii newline
        have ascii : ".ascii".toList.isPrefixOf? (asciiLine content) =
          some (' ' :: '"' :: (content.toList ++ ['\\', '0', '"'])) := rfl
        have line : String.ofList ('\t' :: asciiLine content) = (Instr.ascii content).render := by
          rw [← ascii_render, String.ofList_toList]
        rw [collectData, gather]
        simp only [framed.trim_tab, framed.label?, ascii, line]
    · obtain ⟨cs, eq, isCode⟩ := code_render first isCommand
      rw [eq, collectData_code isCode, ih]
      cases instr with
      | label => cases label
      | ascii content => exact absurd rfl (ascii content)
      | _ => rw [gather] <;> simp
    · obtain ⟨cs, eq, isDirective⟩ := directive_render first isCommand label ascii
      rw [eq, collectData_directive isDirective, ih]
      cases instr with
      | label => cases label
      | ascii content => exact absurd rfl (ascii content)
      | _ => rw [gather] <;> simp

section Lines

variable {image : Image} {cs : List Char}

theorem addLine_directive (h : IsDirective cs) : addLine image ('\t' :: cs) = .ok image := by
  unfold addLine
  simp only [h.framed.trim_tab, h.dot, decide_true, Bool.or_true, if_true]

theorem addLine_ascii {content : String} (h : '\n' ∉ content.toList) :
    addLine image ('\t' :: asciiLine content) = .ok image := by
  have dot : (asciiLine content).head? = some '.' := rfl
  unfold addLine
  simp only [(framed_ascii h).trim_tab, dot, decide_true, Bool.or_true, if_true]

theorem addLine_label {name : String} (h : IsName name) (fresh : name ∉ image.labels.map Prod.fst) :
    addLine image (name.toList ++ [':']) =
      .ok { image with labels := (name, image.code.size) :: image.labels } := by
  obtain ⟨trimmed, label⟩ := label?_name h
  obtain ⟨c, rest, eq, _⟩ := (framed_of_isWord h.isWord).first
  have hc := h.chars c (by simp [eq])
  have tab : (name.toList ++ [':']).head? ≠ some '\t' := by
    rw [eq]
    simpa using isNameChar_ne hc (by decide)
  have dot : (name.toList ++ [':']).head? ≠ some '.' := by
    rw [eq]
    simpa using isNameChar_ne hc (by decide)
  have known : image.labels.any (·.1 == name) = false := by
    rw [any_eq_false]
    intro entry mem eq
    exact fresh (beq_iff_eq.mp eq ▸ mem_map_of_mem mem)
  unfold addLine
  simp only [trimmed, label, tab, dot, known]
  rw [eq]
  rfl

theorem addLine_code {command : Command} (h : IsCode cs)
    (found : Machine.command image.data cs = .ok command) :
    addLine image ('\t' :: cs) = .ok { image with code := image.code.push command } := by
  have nonempty : cs.isEmpty = false := by
    obtain ⟨c, rest, rfl, _⟩ := h.framed.first
    rfl
  unfold addLine
  simp only [h.framed.trim_tab, h.framed.label?, h.dot, nonempty, found]
  rfl

end Lines

def commandOf (data : List Datum) (instr : Instr) : Option Command :=
  (actionOf data instr).map fun action => ⟨action, String.ofList instr.render.toList.tail⟩

/-- The labels of some code, each with the number of the command after it; `pc` is the number of the
first command. -/
def labelsFrom : Nat → List Instr → List (String × Nat)
  | _, [] => []
  | pc, instr :: code =>
    (instr.name?.map (·, pc)).toList ++ labelsFrom (if instr.isCommand then pc + 1 else pc) code

def labelNames (code : List Instr) : List String :=
  code.filterMap Instr.name?

theorem map_fst_labelsFrom (pc : Nat) (code : List Instr) :
    (labelsFrom pc code).map Prod.fst = labelNames code := by
  induction code generalizing pc with
  | nil => rfl
  | cons instr code ih =>
    rw [labelsFrom, map_append, ih]
    unfold labelNames
    rw [filterMap_cons]
    cases instr.name? <;> rfl

/-- The image after some code, if that is loaded into it. -/
def Image.extend (image : Image) (code : List Instr) : Image where
  code := image.code ++ code.filterMap (commandOf image.data)
  labels := (labelsFrom image.code.size code).reverse ++ image.labels
  data := image.data

theorem Image.extend_nil (image : Image) : image.extend [] = image := by
  simp [extend, labelsFrom]

theorem foldlM_addLine {image : Image} {code : List Instr}
    (legible : ∀ instr ∈ code, instr.Legible)
    (resolved : ∀ instr ∈ code, instr.isCommand → (actionOf image.data instr).isSome)
    (distinct : (labelNames code).Nodup)
    (fresh : ∀ name ∈ labelNames code, name ∉ image.labels.map Prod.fst) :
    (code.map fun instr => instr.render.toList).foldlM addLine image = .ok (image.extend code) := by
  induction code generalizing image with
  | nil =>
    rw [Image.extend_nil]
    rfl
  | cons instr code ih =>
    have first := legible instr (mem_cons_self ..)
    have others : ∀ instr ∈ code, instr.Legible := fun instr mem =>
      legible instr (mem_cons_of_mem _ mem)
    have later : ∀ instr ∈ code, instr.isCommand → (actionOf image.data instr).isSome :=
      fun instr mem => resolved instr (mem_cons_of_mem _ mem)
    rw [map_cons, foldlM_cons]
    rcases instr_cases instr first with ⟨name, rfl, isName⟩ | ⟨content, rfl, newline⟩ |
      ⟨label, _, isCommand⟩ | ⟨label, ascii, isCommand⟩
    · have names : labelNames (.label name :: code) = name :: labelNames code := rfl
      rw [names] at distinct fresh
      obtain ⟨apart, distinct⟩ := nodup_cons.mp distinct
      rw [label_render, addLine_label isName (fresh name (mem_cons_self ..))]
      have rest := @ih { image with labels := (name, image.code.size) :: image.labels } others later
        distinct ?_
      · refine rest.trans (congrArg Except.ok ?_)
        simp [Image.extend, labelsFrom, Instr.name?, Instr.isCommand, Instr.mnemonic?,
          Instr.transfer?, filterMap_cons, commandOf, actionOf]
      · intro other mem
        simp only [map_cons, mem_cons, not_or]
        exact ⟨fun eq => apart (eq ▸ mem), fresh other (mem_cons_of_mem _ mem)⟩
    · rw [ascii_render, addLine_ascii newline]
      refine (ih others later distinct fresh).trans (congrArg Except.ok ?_)
      simp [Image.extend, labelsFrom, Instr.name?, Instr.isCommand, Instr.mnemonic?,
          Instr.transfer?, filterMap_cons, commandOf, actionOf]
    · obtain ⟨action, found⟩ := Option.isSome_iff_exists.mp
        (resolved instr (mem_cons_self ..) isCommand)
      obtain ⟨cs, eq, isCode⟩ := code_render first isCommand
      have read := command_render first found
      rw [eq, tail_cons] at read
      have names : labelNames (instr :: code) = labelNames code := by
        simp [labelNames, label]
      rw [names] at distinct fresh
      rw [eq, addLine_code isCode read]
      refine (@ih { image with code := image.code.push ⟨action, String.ofList cs⟩ } others later
        distinct fresh).trans (congrArg Except.ok ?_)
      simp [Image.extend, labelsFrom, label, isCommand, commandOf, found, eq]
    · obtain ⟨cs, eq, isDirective⟩ := directive_render first isCommand label ascii
      have unresolved : actionOf image.data instr = none := by
        cases found : actionOf image.data instr with
        | none => rfl
        | some action =>
          rw [isCommand_of_action found] at isCommand
          cases isCommand
      have names : labelNames (instr :: code) = labelNames code := by
        simp [labelNames, label]
      rw [names] at distinct fresh
      rw [eq, addLine_directive isDirective]
      refine (ih others later distinct fresh).trans (congrArg Except.ok ?_)
      simp [Image.extend, labelsFrom, label, isCommand, commandOf, unresolved]

theorem isLine_render {instr : Instr} (legible : instr.Legible) : IsLine instr.render.toList := by
  rcases instr_cases instr legible with ⟨name, rfl, isName⟩ | ⟨content, rfl, newline⟩ |
    ⟨label, _, isCommand⟩ | ⟨label, ascii, isCommand⟩
  · rw [label_render]
    refine ⟨?_, ?_⟩
    · simp [(framed_of_isWord isName.isWord).newline]
    · rw [getLast?_concat]
      intro c mem
      cases mem
      decide
  · rw [ascii_render]
    exact (framed_ascii newline).isLine
  · obtain ⟨cs, eq, isCode⟩ := code_render legible isCommand
    rw [eq]
    exact isCode.framed.isLine
  · obtain ⟨cs, eq, isDirective⟩ := directive_render legible isCommand label ascii
    rw [eq]
    exact isDirective.framed.isLine

theorem lines_assemble {code : List Instr} (legible : ∀ instr ∈ code, instr.Legible) :
    Text.lines (assemble code).toList = code.map fun instr => instr.render.toList := by
  have texts : (assemble code).toList =
      ((code.map fun instr => instr.render.toList).map (· ++ ['\n'])).flatten := by
    rw [assemble, String.toList_join]
    simp [flatMap_def, Function.comp_def]
  rw [texts]
  refine Text.lines_flatten ?_
  intro line mem
  obtain ⟨instr, inside, rfl⟩ := mem_map.mp mem
  exact isLine_render (legible instr inside)

/-- Legible code with one place for each label is loaded as it stands, if its strings can be read. -/
theorem load_assemble {code : List Instr} {data : List Datum}
    (legible : ∀ instr ∈ code, instr.Legible) (strings : gather none [] code = .ok data)
    (resolved : ∀ instr ∈ code, instr.isCommand → (actionOf data instr).isSome)
    (distinct : (labelNames code).Nodup) :
    load (assemble code) = .ok (Image.extend { data } code) := by
  unfold load
  rw [lines_assemble legible]
  simp only
  rw [collectData_render legible, strings]
  exact foldlM_addLine legible resolved distinct (by simp)

theorem load_of_unread {code : List Instr} {fault : LoadFault}
    (legible : ∀ instr ∈ code, instr.Legible) (strings : gather none [] code = .error fault) :
    load (assemble code) = .error fault := by
  unfold load
  rw [lines_assemble legible]
  simp only
  rw [collectData_render legible, strings]
  rfl

theorem gather_of_load {code : List Instr} {image : Image}
    (legible : ∀ instr ∈ code, instr.Legible) (h : load (assemble code) = .ok image) :
    ∃ data, gather none [] code = .ok data := by
  cases strings : gather none [] code with
  | ok data => exact ⟨data, rfl⟩
  | error fault =>
    rw [load_of_unread legible strings] at h
    cases h

def commandCount (code : List Instr) : Nat :=
  code.countP Instr.isCommand

@[simp] theorem commandCount_append (code rest : List Instr) :
    commandCount (code ++ rest) = commandCount code + commandCount rest :=
  countP_append

/-- Code lies in an image from some command on: its commands are there, and its labels lead there. -/
def Image.Holds (image : Image) : Nat → List Instr → Prop
  | _, [] => True
  | pc, instr :: code =>
    (∀ name, instr.name? = some name → image.labels.lookup name = some pc) ∧
    (instr.isCommand → ∃ command, image.code[pc]? = some command ∧
      actionOf image.data instr = some command.action) ∧
    image.Holds (if instr.isCommand then pc + 1 else pc) code

namespace Image

variable {image : Image} {pc : Nat} {code rest : List Instr}

theorem commandCount_cons (instr : Instr) (pc : Nat) :
    (if instr.isCommand then pc + 1 else pc) + commandCount code =
      pc + commandCount (instr :: code) := by
  unfold commandCount
  rw [countP_cons]
  split <;> omega

theorem labelsFrom_append :
    labelsFrom pc (code ++ rest) =
      labelsFrom pc code ++ labelsFrom (pc + commandCount code) rest := by
  induction code generalizing pc with
  | nil => rfl
  | cons instr code ih =>
    rw [cons_append, labelsFrom, labelsFrom, ih, commandCount_cons, append_assoc]

theorem holds_append :
    image.Holds pc (code ++ rest) ↔
      image.Holds pc code ∧ image.Holds (pc + commandCount code) rest := by
  induction code generalizing pc with
  | nil => simp [Holds, commandCount]
  | cons instr code ih =>
    rw [cons_append, Holds, Holds, ih, commandCount_cons]
    simp only [and_assoc]

theorem lookup_reverse {labels : List (String × Nat)} (distinct : (labels.map Prod.fst).Nodup)
    {name : String} (mem : (name, pc) ∈ labels) : labels.reverse.lookup name = some pc := by
  have once : (labels.reverse.map Prod.fst).Nodup := by
    rw [map_reverse]
    exact (reverse_perm _).nodup_iff.mpr distinct
  obtain ⟨before, after, eq⟩ := append_of_mem (mem_reverse.mpr mem)
  rw [eq, map_append, nodup_append] at once
  refine lookup_eq_some_iff.mpr ⟨before, after, eq, fun entry mem => ?_⟩
  exact bne_iff_ne.mpr (Ne.symm (once.2.2 _ (mem_map_of_mem mem) _ (.head _)))

theorem length_commands {data : List Datum}
    (resolved : ∀ instr ∈ code, instr.isCommand → (actionOf data instr).isSome) :
    (code.filterMap (commandOf data)).length = commandCount code := by
  induction code with
  | nil => rfl
  | cons instr code ih =>
    have rest := ih fun instr mem => resolved instr (mem_cons_of_mem _ mem)
    unfold commandCount at rest ⊢
    rw [countP_cons, ← rest]
    cases found : actionOf data instr with
    | none =>
      have plain : instr.isCommand = false := by
        cases isCommand : instr.isCommand with
        | false => rfl
        | true => simpa [found] using resolved instr (mem_cons_self ..) isCommand
      simp [commandOf, found, plain]
    | some action => simp [commandOf, found, isCommand_of_action found]

theorem holds_extend {data : List Datum}
    (resolved : ∀ instr ∈ code, instr.isCommand → (actionOf data instr).isSome)
    (distinct : (labelNames code).Nodup) : (Image.extend { data } code).Holds 0 code := by
  -- the code seen so far determines where the rest lies
  suffices h : ∀ before after, code = before ++ after →
      (Image.extend { data } code).Holds (commandCount before) after from h [] code rfl
  intro before after eq
  induction after generalizing before with
  | nil => trivial
  | cons instr after ih =>
    have mem : instr ∈ code := by simp [eq]
    have next := ih (before ++ [instr]) (by simp [eq])
    have count : commandCount (before ++ [instr]) =
        if instr.isCommand then commandCount before + 1 else commandCount before := by
      simp only [commandCount, countP_append, countP_cons, countP_nil]
      split <;> omega
    rw [count] at next
    refine ⟨fun name isLabel => ?_, fun isCommand => ?_, next⟩
    · have entry : (name, commandCount before) ∈ labelsFrom 0 code := by
        rw [eq, labelsFrom_append, labelsFrom, isLabel]
        simp
      show ((labelsFrom 0 code).reverse ++ []).lookup name = _
      rw [append_nil]
      exact lookup_reverse (by rw [map_fst_labelsFrom]; exact distinct) entry
    · obtain ⟨action, found⟩ := Option.isSome_iff_exists.mp (resolved instr mem isCommand)
      have place : (before.filterMap (commandOf data)).length = commandCount before :=
        length_commands fun instr mem => resolved instr (by simp [eq, mem])
      refine ⟨⟨action, String.ofList instr.render.toList.tail⟩, ?_, found⟩
      show (#[] ++ code.filterMap (commandOf data))[commandCount before]? = _
      rw [eq, filterMap_append, ← place]
      simp [commandOf, found]

end Image

end Machine

end LineBasic
