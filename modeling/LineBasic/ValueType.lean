/-!
The types of values and how two of them combine.
-/

namespace LineBasic

inductive ValueType where
  | int | float | string
deriving DecidableEq, Inhabited

namespace ValueType

def all : List ValueType :=
  [int, float, string]

def name : ValueType → String
  | int => "int"
  | float => "float"
  | string => "string"

def ofName? (text : String) : Option ValueType :=
  all.find? fun type => type.name == text

/-- The type of an operation on two types: an integer operand makes it an integer, otherwise both
must be alike. -/
def resolve? : ValueType → ValueType → Option ValueType
  | int, _ => some int
  | _, int => some int
  | float, float => some float
  | string, string => some string
  | _, _ => none

def incompatible (lhs rhs : ValueType) : String :=
  "operands have incompatible types '" ++ lhs.name ++ "' and '" ++ rhs.name ++ "'"

theorem resolve?_eq_none_iff {lhs rhs : ValueType} :
    resolve? lhs rhs = none ↔ lhs ≠ int ∧ rhs ≠ int ∧ lhs ≠ rhs := by
  cases lhs <;> cases rhs <;> decide

end ValueType

end LineBasic
