/-!
Assembly for 32-bit machines: registers, operands, instructions, and the text they are written as.
-/

namespace LineBasic

inductive Register where
  | eax | ecx | edx | esp | ebp
deriving DecidableEq, Inhabited

namespace Register

def all : List Register :=
  [eax, ecx, edx, esp, ebp]

def name : Register → String
  | eax => "eax"
  | ecx => "ecx"
  | edx => "edx"
  | esp => "esp"
  | ebp => "ebp"

def ofName? (text : String) : Option Register :=
  all.find? fun register => register.name == text

theorem ofName?_name (register : Register) : ofName? register.name = some register := by
  cases register <;> decide

def render (register : Register) : String :=
  "%" ++ register.name

end Register

/-- A number, the address of a label, a register, or a place in memory: a displacement from a base
register, with or without a scaled index. -/
inductive Operand where
  | imm (value : Int32)
  | addr (label : String)
  | reg (register : Register)
  | mem (disp : Int32) (base : Register)
  | indexed (disp : Int32) (base index : Register) (scale : Nat)
deriving DecidableEq, Inhabited

def Operand.render : Operand → String
  | imm value => s!"${value.toInt}"
  | addr label => s!"${label}"
  | reg register => register.render
  | mem disp base => s!"{disp.toInt}({base.render})"
  | indexed disp base index scale =>
    s!"{disp.toInt}({base.render},{index.render},{scale})"

/-- When a conditional jump is taken, after a comparison of a destination with a source. -/
inductive Condition where
  | equal | notEqual | greater | lessEqual
deriving DecidableEq, Inhabited

def Condition.mnemonic : Condition → String
  | equal => "je"
  | notEqual => "jne"
  | greater => "jg"
  | lessEqual => "jle"

/-- One line of assembly. Where there are two operands, the source comes first. -/
inductive Instr where
  | file (name : String)
  | section (name : String)
  | text
  | globl (symbol : String)
  | ascii (content : String)
  | label (name : String)
  | push (source : Operand)
  | pop (target : Register)
  | mov (source target : Operand)
  | lea (source : Operand) (target : Register)
  | add (source target : Operand)
  | sub (source target : Operand)
  | imul (source : Operand) (target : Register)
  | cltd
  | idiv (divisor : Register)
  | dec (target : Register)
  | cmp (source target : Operand)
  | jmp (goal : String)
  | jcc (condition : Condition) (goal : String)
  | call (symbol : String)
  | leave
  | ret
deriving DecidableEq, Inhabited

namespace Instr

/-- The line without its newline. A string is written with a zero at its end; its escapes are left
to the assembler. -/
def render : Instr → String
  | file name => s!"\t.file\t\"{name}\""
  | .section name => s!"\t.section {name}"
  | text => "\t.text"
  | globl symbol => s!"\t.globl\t{symbol}"
  | ascii content => s!"\t.ascii \"{content}\\0\""
  | label name => s!"{name}:"
  | push source => s!"\tpushl\t{source.render}"
  | pop target => s!"\tpopl\t{target.render}"
  | mov source target => s!"\tmovl\t{source.render}, {target.render}"
  | lea source target => s!"\tleal\t{source.render}, {target.render}"
  | add source target => s!"\taddl\t{source.render}, {target.render}"
  | sub source target => s!"\tsubl\t{source.render}, {target.render}"
  | imul source target => s!"\timull\t{source.render}, {target.render}"
  | cltd => "\tcltd"
  | idiv divisor => s!"\tidivl\t{divisor.render}"
  | dec target => s!"\tdecl\t{target.render}"
  | cmp source target => s!"\tcmpl\t{source.render}, {target.render}"
  | jmp goal => s!"\tjmp\t{goal}"
  | jcc condition goal => s!"\t{condition.mnemonic}\t{goal}"
  | call symbol => s!"\tcall\t{symbol}"
  | leave => "\tleave"
  | ret => "\tret"

end Instr

def assemble (code : List Instr) : String :=
  String.join (code.map fun instr => instr.render ++ "\n")

/-- The assembler and the library that the program is made for. -/
inductive Target where
  | mingw | elf
deriving DecidableEq, Inhabited

namespace Target

def ofName? : String → Option Target
  | "mingw" => some mingw
  | "elf" => some elf
  | _ => none

def symbol : Target → String → String
  | mingw, name => "_" ++ name
  | elf, name => name

def rodata : Target → String
  | mingw => ".rdata,\"dr\""
  | elf => ".rodata"

end Target

end LineBasic
