import LineBasic.Diagnostic.Fault

/-!
Diagnostics: a fault together with the statement and the place in the text it belongs to.
-/

namespace LineBasic

/-- `line` is the number of the statement, `position` the place of the offending token. -/
structure Diagnostic where
  fault : Fault
  line : Option Nat := none
  position : Option Position := none
deriving DecidableEq

namespace Diagnostic

def stage (d : Diagnostic) : Stage :=
  d.fault.stage

def message (d : Diagnostic) : String :=
  d.fault.message

def render (d : Diagnostic) : String :=
  let line := (d.line.map fun n => s!" at line {n}").getD ""
  let position := (d.position.map fun p => s!" ({p.line}:{p.column})").getD ""
  d.stage.describe ++ line ++ position ++ ": " ++ d.message

/-- Names the statement, unless it is named already. -/
def within (line : Nat) (d : Diagnostic) : Diagnostic :=
  { d with line := some (d.line.getD line) }

@[simp] theorem fault_within (line : Nat) (d : Diagnostic) : (d.within line).fault = d.fault := rfl

end Diagnostic

/-- What one compilation reports: one diagnostic or more, in the order they were found. -/
structure Diagnostics where
  first : Diagnostic
  others : List Diagnostic := []
deriving DecidableEq

namespace Diagnostics

def toList (ds : Diagnostics) : List Diagnostic :=
  ds.first :: ds.others

def ofList? : List Diagnostic → Option Diagnostics
  | [] => none
  | d :: ds => some ⟨d, ds⟩

@[simp] theorem ofList?_toList (ds : Diagnostics) : ofList? ds.toList = some ds := rfl

def render (ds : Diagnostics) : String :=
  "\n".intercalate (ds.toList.map Diagnostic.render)

end Diagnostics

end LineBasic
