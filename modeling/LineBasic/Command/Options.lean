import LineBasic.Assembly.Instr

/-!
The command line: its arguments, and the names of files derived from them.
-/

namespace LineBasic.Command

def splitName (path : String) : List Char × List Char :=
  let name := (path.toList.reverse.takeWhile (· != '/')).reverse
  (path.toList.take (path.length - name.length), name)

/-- The name up to the point before its extension, that point included. A point at the start begins
no extension. -/
def dropExtension (name : List Char) : List Char :=
  match name.reverse.dropWhile (· != '.') with
  | [] | [_] => name
  | before => before.reverse

/-- Whether a name is that of a file: it is not empty and leads to no directory. -/
def isFileName (name : List Char) : Bool :=
  name ≠ [] ∧ name ≠ ['.'] ∧ name ≠ ['.', '.']

/-- The name with the extension `s` after it. A point at its end is the extension's own. -/
def addExtension (name : List Char) : List Char :=
  if name.getLast? = some '.' then name ++ ['s'] else name ++ ['.', 's']

/-- The path with the extension `s` in place of its own. What is no file name once its extension is
dropped gets no other one. -/
def withAssemblyExtension (path : String) : String :=
  let (directory, name) := splitName path
  let base := dropExtension name
  String.ofList (directory ++ if isFileName base then addExtension base else base)

def fileName (path : String) : String :=
  String.ofList (splitName path).2

structure Options where
  target : Target := .mingw
  collect : Bool := false
  input : String
  output : String
deriving DecidableEq

structure Partial where
  target : Target := .mingw
  collect : Bool := false
  input : Option String := none
  output : Option String := none

def defaultInput : String := "programs/sample.bas"

/-- The output goes next to the input unless it is named. -/
def Partial.finish (options : Partial) : Options :=
  let input := options.input.getD defaultInput
  { target := options.target
    collect := options.collect
    input
    output := options.output.getD (withAssemblyExtension input) }

/-- Reads arguments from left to right; of two settings of an option the later one counts. There are
no options if an argument is unknown, incomplete, or a second input. -/
def readArguments : Partial → List String → Option Options
  | options, [] => some options.finish
  | options, "--target" :: rest =>
    match rest with
    | name :: rest =>
      match Target.ofName? name with
      | some target => readArguments { options with target } rest
      | none => none
    | [] => none
  | options, "--collect-errors" :: rest => readArguments { options with collect := true } rest
  | options, "-o" :: rest =>
    match rest with
    | path :: rest => readArguments { options with output := some path } rest
    | [] => none
  | options, argument :: rest =>
    if argument.toList.head? = some '-' then none
    else if options.input.isSome then none
    else readArguments { options with input := some argument } rest

def Options.parse? (arguments : List String) : Option Options :=
  readArguments {} arguments

def usage : String :=
  "\n".intercalate [
    "BASIC compiler v0.1.0",
    "",
    "usage: basic [--target mingw|elf] [--collect-errors] [-o OUT] [FILE]",
    "",
    "Compiles a BASIC program into 32-bit x86 assembly.",
    "",
    "options:",
    "    --target T          Assembler flavour, mingw (default) or elf",
    "    --collect-errors    Report every semantic error, not just the first",
    "    -o OUT              Output file, defaults to FILE with a .s extension",
    "",
    "FILE defaults to programs/sample.bas",
    "",
    "examples:",
    "    basic programs/sample.bas",
    "    basic --target elf -o loop.s programs/loop.bas",
    "",
    ""]

end LineBasic.Command
