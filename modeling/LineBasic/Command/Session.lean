import LineBasic.Command.Disk
import LineBasic.Command.Options
import LineBasic.Compile

/-!
A run of the command: read a source, compile it, write the assembly, and say what happens.
-/

namespace LineBasic.Command

/-- A line of the console: the level, where it comes from, and a message. -/
def consoleLine (level : Level) (origin message : String) : String :=
  let padding := String.ofList (List.replicate (5 - level.name.length) ' ')
  level.name ++ padding ++ " [" ++ origin ++ "] " ++ message ++ "\n"

def say (level : Level) (message : String) : String :=
  consoleLine level "basic" message

def sayFault (fault : FileFault) : String :=
  say .error s!"io error: {fault.message}"

/-- Of the record of a compilation, the console shows the warnings. -/
def sayWarnings (log : List Event) : String :=
  String.join <| log.filterMap fun
    | .warned warning => some (consoleLine .warn warning.origin warning.message)
    | _ => none

def sayDiagnostics (options : Options) (diagnostics : Diagnostics) : String :=
  let count := diagnostics.toList.length
  let errors := diagnostics.toList.map fun d => say .error s!"{options.input}: {d.render}"
  let plural := if count = 1 then "" else "s"
  String.join errors ++ say .error s!"compilation failed with {count} error{plural}"

def decode (bytes : ByteArray) : Except FileFault String :=
  match String.fromUTF8? bytes with
  | some text => .ok text
  | none => .error .notText

def beforeReading (options : Options) : String :=
  say .info s!"compiling {options.input}"

/-- What is said once the source was read or was not, and the assembly to be written, if there is
any. -/
def afterReading (options : Options) (bytes : Except FileFault ByteArray) :
    String × Option String :=
  match bytes >>= decode with
  | .error fault => (sayFault fault, none)
  | .ok source =>
    let report := compile source
      { target := options.target, collect := options.collect,
        sourceName := some (fileName options.input) }
    match report.result with
    | .ok assembly => (sayWarnings report.log, some assembly)
    | .error diagnostics =>
      (sayWarnings report.log ++ sayDiagnostics options diagnostics, none)

def usageCode : UInt32 := 64

def failureCode : UInt32 := 1

/-- What is said once the assembly was written or was not, and the exit code. -/
def afterWriting (options : Options) : Except FileFault Unit → String × UInt32
  | .ok _ => (say .info s!"wrote {options.output}", 0)
  | .error fault => (sayFault fault, failureCode)

/-- How a command ends: its exit code, the text on the console, and the disk it leaves. -/
structure Outcome where
  exitCode : UInt32
  console : String
  disk : Disk

def execute (arguments : List String) (disk : Disk) : Outcome :=
  match Options.parse? arguments with
  | none => ⟨usageCode, usage, disk⟩
  | some options =>
    let opening := beforeReading options
    match afterReading options (disk.read options.input) with
    | (console, none) => ⟨failureCode, opening ++ console, disk⟩
    | (console, some assembly) =>
      let result := disk.write options.output assembly.toUTF8
      let (closing, exitCode) := afterWriting options (result.map fun _ => ())
      ⟨exitCode, opening ++ console ++ closing, result.toOption.getD disk⟩

end LineBasic.Command
