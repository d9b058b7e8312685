import LineBasic.Machine.Command
import LineBasic.Text.Blank

/-!
Loading assembly, with a first pass that collects the strings of the data section.
-/

namespace LineBasic.Machine

/-- A string in memory: its label, its address and its characters. -/
structure Datum where
  label : String
  address : Int32
  content : String
deriving DecidableEq, Inhabited

def dataStart : Int32 := 0x10000

def dataStride : Int32 := 0x100

/-- A program in memory: its commands, the place of each label among them, and its strings. Of two
labels, or two strings, the later one comes first. -/
structure Image where
  code : Array Command := #[]
  labels : List (String × Nat) := []
  data : List Datum := []

/-- The characters that escapes stand for; if there is an escape that stands for none, what follows
its backslash. -/
def unescape : List Char → Except (Option Char) (List Char)
  | [] => .ok []
  | '\\' :: 'n' :: rest => ('\n' :: ·) <$> unescape rest
  | '\\' :: 't' :: rest => ('\t' :: ·) <$> unescape rest
  | '\\' :: '"' :: rest => ('"' :: ·) <$> unescape rest
  | '\\' :: '\\' :: rest => ('\\' :: ·) <$> unescape rest
  | '\\' :: rest => .error rest.head?
  | c :: rest => (c :: ·) <$> unescape rest

/-- The characters of a quoted string that ends with a zero. -/
def decodeString (quoted : List Char) : Except LoadFault String :=
  let text := String.ofList quoted
  match (['"'].isPrefixOf? quoted).bind (['"'].isSuffixOf? ·) with
  | none => .error (.unquoted text)
  | some inner =>
    match ['\\', '0'].isSuffixOf? inner with
    | none => .error (.unterminated text)
    | some inner =>
      match unescape inner with
      | .ok content => .ok (String.ofList content)
      | .error escape => .error (.unsupportedEscape escape text)

/-- The label that a line ends with a colon after. -/
def label? (line : List Char) : Option String :=
  ([':'].isSuffixOf? line).map String.ofList

/-- Collects strings. A string belongs to the label right before it, blank lines aside. -/
def collectData : Option String → List Datum → List (List Char) → Except LoadFault (List Datum)
  | _, data, [] => .ok data
  | pending, data, line :: rest =>
    let trimmed := Text.trim line
    match label? trimmed, ".ascii".toList.isPrefixOf? trimmed with
    | some label, _ => collectData (some label) data rest
    | none, some quoted =>
      match pending with
      | none => .error (.stringWithoutLabel (String.ofList line))
      | some label => do
        let content ← decodeString (Text.trim quoted)
        let address := dataStart + Int32.ofNat data.length * dataStride
        collectData none (⟨label, address, content⟩ :: data) rest
    | none, none => collectData (if trimmed.isEmpty then pending else none) data rest

def register (text : List Char) : Except LoadFault Register :=
  match text with
  | '%' :: name =>
    match Register.ofName? (String.ofList name) with
    | some register => .ok register
    | none => .error (.unknownRegister (String.ofList text))
  | _ => .error (.unknownRegister (String.ofList text))

/-- A number, or the address of a string by its label. -/
def immediate (data : List Datum) (text : List Char) : Except LoadFault Operand :=
  match Text.int32? text with
  | some value => .ok (.imm value)
  | none =>
    let label := String.ofList text
    match data.find? (·.label == label) with
    | some datum => .ok (.imm datum.address)
    | none => .error (.unknownLabel label)

/-- A displacement with a base, or with a base, an index and a scale. -/
def place (text : List Char) : Except LoadFault Operand := do
  let whole := String.ofList text
  match text.dropWhile (· != '(') with
  | [] => throw (.unsupportedOperand whole)
  | _ :: inner =>
    let disp ← match text.takeWhile (· != '(') with
      | [] => pure 0
      | disp =>
        match Text.int32? disp with
        | some disp => pure disp
        | none => throw (.badDisplacement whole)
    let inner := (inner.reverse.dropWhile (· == ')')).reverse
    match Text.pieces (· == ',') inner with
    | [base] => return .mem disp (← register base) none
    | [base, index, scale] =>
      match Text.int32? scale with
      | some scale =>
        let base ← register base
        return .mem disp base (some (← register index, scale))
      | none => throw (.badScale whole)
    | _ => throw (.unsupportedPlace whole)

def operand (data : List Datum) (text : List Char) : Except LoadFault Operand :=
  match text with
  | '$' :: rest => immediate data rest
  | '%' :: _ => Operand.reg <$> register text
  | _ => place text

/-- The texts between commas with a space after them. -/
def operandTexts : List Char → List (List Char)
  | [] => [[]]
  | ',' :: ' ' :: rest => [] :: operandTexts rest
  | c :: rest =>
    match operandTexts rest with
    | [] => [[c]]
    | text :: texts => (c :: text) :: texts

/-- The command on a line: a mnemonic and, after a tab, a name or operands. -/
def command (data : List Datum) (line : List Char) : Except LoadFault Command := do
  let mnemonic := String.ofList (line.takeWhile (· != '\t'))
  let rest := Text.trim ((line.dropWhile (· != '\t')).drop 1)
  let source := String.ofList line
  match Action.ofName? mnemonic (String.ofList rest) with
  | some action => return { action, source }
  | none =>
    let operands ← if rest.isEmpty then pure [] else (operandTexts rest).mapM (operand data)
    return { action := .ofOperands mnemonic operands, source }

/-- Adds a line to the code: a label, a command, or nothing for a directive or a blank line. A line
that starts with a tab is no label. -/
def addLine (image : Image) (line : List Char) : Except LoadFault Image :=
  let trimmed := Text.trim line
  let code : Except LoadFault Image := do
    return { image with code := image.code.push (← command image.data trimmed) }
  if trimmed.isEmpty || trimmed.head? = some '.' then
    .ok image
  else match label? trimmed with
    | some label =>
      if line.head? = some '\t' then code
      else if image.labels.any (·.1 == label) then .error (.duplicateLabel label)
      else .ok { image with labels := (label, image.code.size) :: image.labels }
    | none => code

def load (assembly : String) : Except LoadFault Image := do
  let lines := Text.lines assembly.toList
  let data ← collectData none [] lines
  lines.foldlM addLine { data }

end LineBasic.Machine
