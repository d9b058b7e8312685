import LineBasic.Command.Session
import LineBasic.Proofs.Text.Lines

/-!
What a command does to a disk: nothing if it fails, and otherwise it fills one file.
-/

namespace LineBasic.Command

open List

/-- A path cut before its last name: what comes before is nothing, or it ends with a slash. -/
theorem splitName_spec (path : String) :
    path.toList = (splitName path).1 ++ (splitName path).2 ∧ '/' ∉ (splitName path).2 ∧
      ((splitName path).1 = [] ∨ ∃ outer, (splitName path).1 = outer ++ ['/']) := by
  have whole : path.toList = (path.toList.reverse.dropWhile (· != '/')).reverse ++
      (path.toList.reverse.takeWhile (· != '/')).reverse := by
    rw [← reverse_append, takeWhile_append_dropWhile, reverse_reverse]
  have length := congrArg List.length whole
  rw [length_append, String.length_toList] at length
  have last : (splitName path).2 = (path.toList.reverse.takeWhile (· != '/')).reverse := rfl
  have first : (splitName path).1 = (path.toList.reverse.dropWhile (· != '/')).reverse := by
    show path.toList.take _ = _
    conv => lhs; arg 2; rw [whole]
    exact take_left' (by omega)
  refine ⟨by rw [first, last]; exact whole, ?_, ?_⟩
  · intro mem
    rw [last, mem_reverse] at mem
    have other := all_eq_true.mp (List.all_takeWhile ..) '/' mem
    simp at other
  · rw [first]
    cases eq : path.toList.reverse.dropWhile (· != '/') with
    | nil => exact .inl rfl
    | cons c outer =>
      have slash := head?_dropWhile_not (· != '/') path.toList.reverse
      rw [eq] at slash
      simp only [head?_cons, bne_eq_false_iff_eq] at slash
      exact .inr ⟨outer.reverse, by rw [reverse_cons, slash]⟩

namespace Disk

variable {disk after : Disk} {path : String} {names : Names} {bytes : ByteArray}
  {directory name : List Char}

/-- The file that a path leads to, whether it is there or could be made. -/
def locate? (disk : Disk) (path : String) : Option Names :=
  match disk.walk path with
  | .ok (directory, some name) => some (directory ++ [name])
  | _ => none

/-- `after` differs in one file, which holds the given bytes. -/
structure Replaces (disk after : Disk) (names : Names) (bytes : ByteArray) : Prop where
  working : after.working = disk.working
  directories : after.directories = disk.directories
  written : after.file? names = some bytes
  kept : ∀ other, other ≠ names → after.file? other = disk.file? other

theorem locate?_of_read (h : disk.read path = .ok bytes) :
    ∃ names, disk.locate? path = some names ∧ disk.file? names = some bytes := by
  unfold read at h
  unfold locate?
  cases walked : disk.walk path with
  | error => rw [walked] at h; cases h
  | ok found =>
    obtain ⟨directory, _ | name⟩ := found
    · rw [walked] at h
      cases h
    · refine ⟨directory ++ [name], rfl, ?_⟩
      rw [walked] at h
      simp only [bind, Except.bind] at h
      split at h
      next found =>
        cases h
        exact found
      next => cases h

theorem lookup_filter {files : List (Names × ByteArray)} {other : Names} (apart : other ≠ names) :
    (files.filter (·.1 != names)).lookup other = files.lookup other := by
  induction files with
  | nil => rfl
  | cons file files ih =>
    obtain ⟨found, content⟩ := file
    by_cases same : found = names
    · have differs : (other == found) = false := by
        rw [same]
        exact beq_eq_false_iff_ne.mpr apart
      rw [filter_cons_of_neg (by simp [same]), lookup_cons, differs]
      exact ih
    · rw [filter_cons_of_pos (by simp [same]), lookup_cons, lookup_cons, ih]

theorem replaces_of_write (h : disk.write path bytes = .ok after) :
    ∃ names, disk.locate? path = some names ∧ disk.Replaces after names bytes := by
  unfold write at h
  unfold locate?
  dsimp only at h
  split at h
  next =>
    simp only [bind, Except.bind] at h
    split at h
    next => cases h
    next => cases h
  next =>
    cases walked : disk.walk path with
    | error => rw [walked] at h; cases h
    | ok found =>
      rw [walked] at h
      obtain ⟨directory, _ | name⟩ := found
      · cases h
      · simp only [bind, Except.bind] at h
        split at h
        next => cases h
        next =>
          cases h
          refine ⟨directory ++ [name], rfl, rfl, rfl, ?_, fun other apart => ?_⟩
          · simp [file?]
          · have differs : (other == directory ++ [name]) = false := beq_eq_false_iff_ne.mpr apart
            show List.lookup other (_ :: _) = _
            rw [lookup_cons, differs]
            exact lookup_filter apart

def outerNames (directory : List Char) : Names :=
  ((Text.pieces (· == '/') directory).dropLast).map String.ofList

def base (disk : Disk) (directory : List Char) : Names :=
  if directory.head? = some '/' then [] else disk.working

theorem locate?_append (outer : directory = [] ∨ ∃ before, directory = before ++ ['/'])
    (plain : '/' ∉ name) :
    disk.locate? (String.ofList (directory ++ name)) =
      if isFileName name then
        ((outerNames directory).foldlM disk.enter (disk.base directory)).toOption.map
          (· ++ [String.ofList name])
      else none := by
  have noSlash : ∀ c ∈ name, (c == '/') = false := by
    intro c mem
    exact beq_eq_false_iff_ne.mpr fun eq => plain (eq ▸ mem)
  have names : namesOf (String.ofList (directory ++ name)) =
      outerNames directory ++ [String.ofList name] := by
    rw [namesOf, String.toList_ofList, outerNames]
    rcases outer with rfl | ⟨before, rfl⟩
    · rw [nil_append, Text.pieces_eq_singleton noSlash]
      rfl
    · rw [append_assoc, singleton_append, Text.pieces_append (by rfl),
        Text.pieces_append (by rfl), Text.pieces_eq_singleton noSlash]
      simp [Text.pieces]
  have start : (if (String.ofList (directory ++ name)).toList.head? = some '/' then [] else
      disk.working) = disk.base directory := by
    rw [String.toList_ofList, base]
    rcases outer with rfl | ⟨before, rfl⟩
    · cases name with
      | nil => rfl
      | cons c name =>
        have other : c ≠ '/' := fun eq => plain (eq ▸ mem_cons_self ..)
        simp [other]
    · cases before <;> rfl
  have text (cs : List Char) : String.ofList name = String.ofList cs ↔ name = cs :=
    ⟨fun eq => by simpa using congrArg String.toList eq, fun eq => eq ▸ rfl⟩
  have empty : String.ofList name = "" ↔ name = [] := text []
  have dot : String.ofList name = "." ↔ name = ['.'] := text ['.']
  have dots : String.ofList name = ".." ↔ name = ['.', '.'] := text ['.', '.']
  unfold locate? walk
  simp only [names, start, getLast?_concat, Option.getD_some, dropLast_concat, empty, dot,
    dots, isFileName, decide_eq_true_eq]
  by_cases isName : name ≠ [] ∧ name ≠ ['.'] ∧ name ≠ ['.', '.']
  · have nonempty : String.ofList (directory ++ name) ≠ "" := by
      intro eq
      have := congrArg String.toList eq
      simp [isName.1] at this
    have named : ¬ (name = [] ∨ name = ['.'] ∨ name = ['.', '.']) := by
      rintro (eq | eq | eq)
      · exact isName.1 eq
      · exact isName.2.1 eq
      · exact isName.2.2 eq
    rw [if_neg nonempty, if_neg named, if_pos isName]
    cases (outerNames directory).foldlM disk.enter (disk.base directory) <;> rfl
  · have unnamed : name = [] ∨ name = ['.'] ∨ name = ['.', '.'] := by grind
    rw [if_pos unnamed, if_neg isName]
    by_cases blank : String.ofList (directory ++ name) = ""
    · rw [if_pos blank]
      rfl
    · rw [if_neg blank]
      cases (outerNames directory ++ [String.ofList name]).foldlM disk.enter (disk.base directory) <;>
        rfl

end Disk

/-- The last name of the output that is named after an input. -/
def assemblyName (name : List Char) : List Char :=
  if isFileName (dropExtension name) then addExtension (dropExtension name) else dropExtension name

theorem withAssemblyExtension_eq (path : String) : withAssemblyExtension path =
    String.ofList ((splitName path).1 ++ assemblyName (splitName path).2) := rfl

/-- A path to a file with the extension of assembly. -/
def HasAssemblyExtension (path : String) : Prop :=
  ∃ stem, stem ≠ [] ∧ (splitName path).2 = stem ++ ['.', 's']

section Extension

variable {name stem : List Char}

theorem dropExtension_cases (name : List Char) :
    dropExtension name = name ∨ ∃ stem extension, stem ≠ [] ∧
      dropExtension name = stem ++ ['.'] ∧ name = stem ++ '.' :: extension := by
  have whole : name.reverse.takeWhile (· != '.') ++ name.reverse.dropWhile (· != '.') =
      name.reverse := takeWhile_append_dropWhile
  have point := head?_dropWhile_not (· != '.') name.reverse
  unfold dropExtension
  cases eq : name.reverse.dropWhile (· != '.') with
  | nil => exact .inl rfl
  | cons c before =>
    rw [eq] at whole point
    simp only [head?_cons, bne_eq_false_iff_eq] at point
    subst point
    cases before with
    | nil => exact .inl rfl
    | cons d before =>
      refine .inr ⟨(d :: before).reverse, (name.reverse.takeWhile (· != '.')).reverse, by simp,
        by simp, ?_⟩
      have parts := congrArg List.reverse whole
      simpa using parts.symm

/-- An output has another name than its input unless the input looks like an output. -/
theorem eq_append_of_assemblyName (isName : isFileName name) (same : assemblyName name = name) :
    ∃ stem, stem ≠ [] ∧ name = stem ++ ['.', 's'] := by
  unfold assemblyName at same
  rcases dropExtension_cases name with plain | ⟨stem, extension, nonempty, base, eq⟩
  · rw [plain, if_pos isName, addExtension] at same
    split at same
    next => simp at same
    next => simp at same
  · rw [base] at same
    split at same
    next =>
      rw [addExtension, getLast?_concat, if_pos rfl] at same
      exact ⟨stem, nonempty, by rw [← same]; simp⟩
    next other =>
      rw [same] at other
      exact absurd isName other

theorem assemblyName_append (nonempty : stem ≠ [])
    (isName : isFileName (assemblyName (stem ++ ['.', 's']))) :
    assemblyName (stem ++ ['.', 's']) = stem ++ ['.', 's'] := by
  have base : dropExtension (stem ++ ['.', 's']) = stem ++ ['.'] := by
    obtain ⟨first, rest, eq⟩ := exists_cons_of_ne_nil (mt reverse_eq_nil_iff.mp nonempty)
    have found : (stem ++ ['.', 's']).reverse.dropWhile (· != '.') = '.' :: first :: rest := by
      simp [eq]
    unfold dropExtension
    rw [found]
    simp [← eq]
  unfold assemblyName at isName ⊢
  rw [base] at isName ⊢
  split at isName
  next named =>
    rw [if_pos named, addExtension, getLast?_concat, if_pos rfl]
    simp
  next other => exact absurd isName other

theorem slash_not_mem_assemblyName (plain : '/' ∉ name) : '/' ∉ assemblyName name := by
  have base : '/' ∉ dropExtension name := by
    rcases dropExtension_cases name with eq | ⟨stem, extension, _, eq, rfl⟩
    · rwa [eq]
    · rw [eq]
      simp at plain ⊢
      exact plain.1
  unfold assemblyName addExtension
  split
  next =>
    split <;> simp [base]
  next => exact base

end Extension

theorem output_of_readArguments {read : Partial} {arguments : List String} {options : Options}
    (unnamed : "-o" ∉ arguments) (open_ : read.output = none)
    (h : readArguments read arguments = some options) :
    options.output = withAssemblyExtension options.input := by
  fun_induction readArguments read arguments with
  | case1 =>
    cases h
    simp [Partial.finish, open_]
  | case2 _ name rest _ _ ih =>
    simp only [mem_cons, not_or] at unnamed
    exact ih unnamed.2.2 open_ h
  | case5 _ rest ih => exact ih (fun mem => unnamed (mem_cons_of_mem _ mem)) open_ h
  | case6 => exact absurd (mem_cons_self ..) unnamed
  | case10 _ argument rest _ _ _ _ _ ih =>
    exact ih (fun mem => unnamed (mem_cons_of_mem _ mem)) open_ h
  | case3 | case4 | case7 | case8 | case9 => cases h

def Options.config (options : Options) : Config where
  target := options.target
  collect := options.collect
  sourceName := some (fileName options.input)

/-- A command that has gone well: of the files before it, `input` held the source, and `output` is the
only one it has written to. -/
structure Wrote (options : Options) (disk after : Disk) (input output : Names) (bytes : ByteArray)
    (source assembly : String) : Prop where
  located : disk.locate? options.input = some input
  held : disk.file? input = some bytes
  text : String.fromUTF8? bytes = some source
  compiled : (compile source options.config).result = .ok assembly
  target : disk.locate? options.output = some output
  replaces : disk.Replaces after output assembly.toUTF8

theorem compiled_of_afterReading {options : Options} {content : Except FileFault ByteArray}
    {console assembly : String} (h : afterReading options content = (console, some assembly)) :
    ∃ bytes source, content = .ok bytes ∧ String.fromUTF8? bytes = some source ∧
      (compile source options.config).result = .ok assembly := by
  cases content with
  | error fault => cases h
  | ok bytes =>
    cases text : String.fromUTF8? bytes with
    | none =>
      simp only [afterReading, decode, text, bind, Except.bind] at h
      cases h
    | some source =>
      refine ⟨bytes, source, rfl, text, ?_⟩
      simp only [afterReading, decode, text, bind, Except.bind] at h
      split at h
      next compiled =>
        cases h
        exact compiled
      next => cases h

theorem execute_cases (arguments : List String) (disk : Disk) :
    ((execute arguments disk).exitCode = usageCode ∨
        (execute arguments disk).exitCode = failureCode) ∧ (execute arguments disk).disk = disk ∨
      (execute arguments disk).exitCode = 0 ∧ ∃ options input output bytes source assembly,
        Options.parse? arguments = some options ∧
        Wrote options disk (execute arguments disk).disk input output bytes source assembly := by
  unfold execute
  cases parsed : Options.parse? arguments with
  | none => exact .inl ⟨.inl rfl, rfl⟩
  | some options =>
    dsimp only
    cases reading : afterReading options (disk.read options.input) with
    | mk console found =>
      cases found with
      | none => exact .inl ⟨.inr rfl, rfl⟩
      | some assembly =>
        obtain ⟨bytes, source, read, text, compiled⟩ := compiled_of_afterReading reading
        obtain ⟨input, located, held⟩ := Disk.locate?_of_read read
        cases written : disk.write options.output assembly.toUTF8 with
        | error fault => exact .inl ⟨.inr (by simp only [written]; rfl), by simp only [written]; rfl⟩
        | ok after =>
          obtain ⟨output, target, replaces⟩ := Disk.replaces_of_write written
          refine .inr ⟨by simp only [written]; rfl, options, input, output, bytes, source, assembly,
            rfl, located, held, text, compiled, target, ?_⟩
          simp only [written]
          exact replaces

theorem Wrote.beside {options : Options} {disk after : Disk} {input output : Names}
    {bytes : ByteArray} {source assembly : String}
    (h : Wrote options disk after input output bytes source assembly)
    (derived : options.output = withAssemblyExtension options.input) :
    input = output ↔ HasAssemblyExtension options.input := by
  obtain ⟨whole, plain, outer⟩ := splitName_spec options.input
  have located := h.located
  have target := h.target
  rw [derived, withAssemblyExtension_eq,
    Disk.locate?_append outer (slash_not_mem_assemblyName plain)] at target
  rw [← options.input.ofList_toList, whole, Disk.locate?_append outer plain] at located
  split at located
  next isName =>
    split at target
    next isName' =>
      obtain ⟨directory, reached, rfl⟩ := Option.map_eq_some_iff.mp located
      obtain ⟨directory', reached', rfl⟩ := Option.map_eq_some_iff.mp target
      cases reached.symm.trans reached'
      constructor
      · intro same
        have names : String.ofList (splitName options.input).2 =
            String.ofList (assemblyName (splitName options.input).2) :=
          singleton_inj.mp (append_cancel_left same)
        exact eq_append_of_assemblyName isName (by simpa using (congrArg String.toList names).symm)
      · rintro ⟨stem, nonempty, eq⟩
        rw [eq] at isName' ⊢
        rw [assemblyName_append nonempty isName']
    next => cases target
  next => cases located

/-- A command that fails leaves every file as it is. One that does not has written the assembly for its
input to one file, and unless an output was named the input is as it was, or has the extension of
assembly and is that file. -/
theorem execute_effects (arguments : List String) (disk : Disk) :
    ((execute arguments disk).exitCode = 64 ∨ (execute arguments disk).exitCode = 1 ∨
      (execute arguments disk).exitCode = 0) ∧
    ((execute arguments disk).exitCode = 64 ∨ (execute arguments disk).exitCode = 1 →
      (execute arguments disk).disk = disk) ∧
    ((execute arguments disk).exitCode = 0 → ∃ options input output bytes source assembly,
      Options.parse? arguments = some options ∧
      Wrote options disk (execute arguments disk).disk input output bytes source assembly ∧
      ("-o" ∉ arguments → (input = output ↔ HasAssemblyExtension options.input) ∧
        (¬ HasAssemblyExtension options.input →
          (execute arguments disk).disk.file? input = some bytes))) := by
  have usage : usageCode = 64 := rfl
  have failure : failureCode = 1 := rfl
  rcases execute_cases arguments disk with ⟨failed, same⟩ |
    ⟨ended, options, input, output, bytes, source, assembly, parsed, wrote⟩
  · rw [usage, failure] at failed
    refine ⟨failed.imp_right .inl, fun _ => same, fun ended => ?_⟩
    rw [ended] at failed
    exact absurd failed (by decide)
  · refine ⟨.inr (.inr ended), fun failed => ?_, fun _ => ?_⟩
    · rw [ended] at failed
      exact absurd failed (by decide)
    · refine ⟨options, input, output, bytes, source, assembly, parsed, wrote, fun unnamed => ?_⟩
      have beside := wrote.beside (output_of_readArguments unnamed rfl parsed)
      refine ⟨beside, fun other => ?_⟩
      rw [wrote.replaces.kept input (mt beside.mp other)]
      exact wrote.held

/-- An input that looks like assembly is overwritten, though no output was named. -/
theorem execute_overwrites :
    "-o" ∉ ["x.s"] ∧
      (execute ["x.s"] { files := [(["x.s"], "10 REM".toUTF8)] }).exitCode = 0 ∧
      (execute ["x.s"] { files := [(["x.s"], "10 REM".toUTF8)] }).disk.file? ["x.s"] ≠
        some "10 REM".toUTF8 := by
  decide +kernel

end LineBasic.Command
