import LineBasic.Assembly.Instr
import LineBasic.Text.Numeral
import LineBasic.Text.Quoted

/-!
What the machine executes: commands with resolved operands, and the faults that loading and running
can end with.
-/

namespace LineBasic.Machine

/-- A number, a register, or a place in memory with or without a scaled index. -/
inductive Operand where
  | imm (value : Int32)
  | reg (register : Register)
  | mem (disp : Int32) (base : Register) (index : Option (Register × Int32))
deriving DecidableEq, Inhabited

/-- What a line of assembly does. The source comes before the target. A line that the machine does
not know is `unsupported`, which matters only if it is reached. -/
inductive Action where
  | push (source : Operand)
  | pop (target : Operand)
  | mov (source target : Operand)
  | lea (source target : Operand)
  | add (source target : Operand)
  | sub (source target : Operand)
  | imul (source target : Operand)
  | dec (target : Operand)
  | cltd
  | idiv (divisor : Operand)
  | cmp (source target : Operand)
  | jmp (goal : String)
  | jcc (condition : Condition) (goal : String)
  | call (symbol : String)
  | leave
  | ret
  | unsupported
deriving DecidableEq, Inhabited

namespace Action

def ofName? (mnemonic goal : String) : Option Action :=
  match mnemonic with
  | "jmp" => some (jmp goal)
  | "je" => some (jcc .equal goal)
  | "jne" => some (jcc .notEqual goal)
  | "jg" => some (jcc .greater goal)
  | "jle" => some (jcc .lessEqual goal)
  | "call" => some (call goal)
  | _ => none

def ofOperands (mnemonic : String) (operands : List Operand) : Action :=
  match mnemonic, operands with
  | "pushl", [source] => push source
  | "popl", [target] => pop target
  | "movl", [source, target] => mov source target
  | "leal", [source, target] => lea source target
  | "addl", [source, target] => add source target
  | "subl", [source, target] => sub source target
  | "imull", [source, target] => imul source target
  | "decl", [target] => dec target
  | "cltd", [] => cltd
  | "idivl", [divisor] => idiv divisor
  | "cmpl", [source, target] => cmp source target
  | "leave", [] => leave
  | "ret", [] => ret
  | _, _ => unsupported

end Action

structure Command where
  action : Action
  source : String
deriving DecidableEq, Inhabited

inductive LoadFault where
  | stringWithoutLabel (line : String)
  | unquoted (text : String)
  | unterminated (text : String)
  | unsupportedEscape (escape : Option Char) (text : String)
  | duplicateLabel (label : String)
  | unknownLabel (label : String)
  | unknownRegister (text : String)
  | unsupportedOperand (text : String)
  | badDisplacement (text : String)
  | badScale (text : String)
  | unsupportedPlace (text : String)
deriving DecidableEq

def LoadFault.message : LoadFault → String
  | stringWithoutLabel line => s!"string without label: {line}"
  | unquoted text => s!"unquoted string {text}"
  | unterminated text => s!"string is not null terminated: {text}"
  | unsupportedEscape escape text => s!"unsupported escape \\{Text.quoteChar? escape} in {text}"
  | duplicateLabel label => s!"duplicate label {label}"
  | unknownLabel label => s!"unknown label {label}"
  | unknownRegister text => s!"unknown register {text}"
  | unsupportedOperand text => s!"unsupported operand {text}"
  | badDisplacement text => s!"bad displacement in {text}"
  | badScale text => s!"bad scale in {text}"
  | unsupportedPlace text => s!"unsupported memory operand {text}"

def stackTop : Int32 := 0x100000

inductive RunFault where
  | noMain
  | stepLimit (output : String)
  | ranOff
  | unbalanced (esp : Int32)
  | divisionByZero (source : String)
  | unknownReturn
  | unsupported (source : String)
  | unknownGoal (label : String)
  | unknownFunction (symbol : String)
  | unsupportedConversion (conversion : Option Char)
  | inputExhausted
  | noString (address : Int32)
  | emptyStack
  | unwritten (address : Int32)
  | immediateAddress (value : Int32)
  | registerAddress (register : Register)
  | immediateTarget
deriving DecidableEq

def RunFault.message : RunFault → String
  | noMain => "program has no main"
  | stepLimit output => s!"step limit exceeded, output so far: {Text.quoteText output}"
  | ranOff => "ran off the end of the program"
  | unbalanced esp =>
    s!"stack is unbalanced on return: {Text.hexWord esp} != {Text.hexWord stackTop}"
  | divisionByZero source => s!"division by zero at {source}"
  | unknownReturn => "return to unknown address"
  | unsupported source => s!"unsupported instruction {source}"
  | unknownGoal label => s!"jump to unknown label {label}"
  | unknownFunction symbol => s!"call to unknown function {symbol}"
  | unsupportedConversion conversion =>
    s!"unsupported conversion %{Text.quoteChar? conversion}"
  | inputExhausted => "input exhausted or malformed"
  | noString address => s!"no string at {Text.hexWord address}"
  | emptyStack => "pop from empty stack"
  | unwritten address => s!"read of unwritten memory at {Text.hexWord address}"
  | immediateAddress value => s!"operand Imm({value.toInt}) has no address"
  | registerAddress register => s!"operand Reg({register.name.capitalize}) has no address"
  | immediateTarget => "write to immediate"

inductive Fault where
  | load (fault : LoadFault)
  | run (fault : RunFault)
deriving DecidableEq

def Fault.message : Fault → String
  | load fault => fault.message
  | run fault => fault.message

end LineBasic.Machine
