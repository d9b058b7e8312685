import LineBasic.Text.Graphic
import LineBasic.Text.Numeral

/-!
Characters and texts as they are shown inside messages, between quotes.
-/

namespace LineBasic.Text

/-- One character between quotes. The backslash, the delimiter and the usual controls are escaped;
what has no picture of its own is shown by its code point. -/
def escape (delimiter c : Char) : String :=
  if c = '\x00' then "\\0"
  else if c = '\t' then "\\t"
  else if c = '\r' then "\\r"
  else if c = '\n' then "\\n"
  else if c = '\\' || c = delimiter then String.ofList ['\\', c]
  else if isGraphic c then c.toString
  else "\\u\x7b" ++ hexadecimal c.toNat ++ "\x7d"

def quoteChar (c : Char) : String :=
  "'" ++ escape '\x27' c ++ "'"

def quoteText (s : String) : String :=
  "\"" ++ String.join (s.toList.map (escape '\x22')) ++ "\""

def quoteChar? : Option Char → String
  | some c => "Some(" ++ quoteChar c ++ ")"
  | none => "None"

def bracketed (ns : List Nat) : String :=
  "[" ++ ", ".intercalate (ns.map toString) ++ "]"

end LineBasic.Text
