/-!
Numerals: decimal digits read as numbers, and words written in hexadecimal.
-/

namespace LineBasic.Text

def digitsValue (cs : List Char) : Nat :=
  cs.foldl (fun n c => 10 * n + (c.toNat - '0'.toNat)) 0

/-- A natural number: one decimal digit or more, and nothing else. -/
def natural? (cs : List Char) : Option Nat :=
  if cs ≠ [] ∧ cs.all Char.isDigit then some (digitsValue cs) else none

/-- An integer: a natural number with or without a sign before it. -/
def integer? : List Char → Option Int
  | '-' :: cs => (natural? cs).map fun n => -(n : Int)
  | '+' :: cs => (natural? cs).map fun n => (n : Int)
  | cs => (natural? cs).map fun n => (n : Int)

/-- An integer that fits in 32 bits with sign. -/
def int32? (cs : List Char) : Option Int32 :=
  match integer? cs with
  | some n => if -0x80000000 ≤ n ∧ n < 0x80000000 then some (Int32.ofInt n) else none
  | none => none

def hexadecimal (n : Nat) : String :=
  String.ofList (Nat.toDigits 16 n)

def hexWord (w : Int32) : String :=
  "0x" ++ hexadecimal w.toUInt32.toNat

end LineBasic.Text
