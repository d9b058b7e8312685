import LineBasic.Main
import LineBasic.Proofs.Command.Effects
import LineBasic.Proofs.Compile.Limits
import LineBasic.Proofs.Compile.Renumber
import LineBasic.Proofs.Parse.Formulas
import LineBasic.Proofs.Parse.Jumps
import LineBasic.Proofs.Parse.Links
import LineBasic.Proofs.Parse.Placement
import LineBasic.Proofs.Parse.Scopes
import LineBasic.Proofs.Semantics.Loops
import LineBasic.Proofs.Semantics.Strings
import LineBasic.Proofs.Stack.Safety
import LineBasic.Proofs.Tree.Forest
