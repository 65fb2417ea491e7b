import Switching.CommandLine
import Switching.Document
import Switching.Expr.Assembly
import Switching.Expr.Parts
import Switching.Main
import Switching.Proofs.Circuit.Meaning
import Switching.Proofs.Circuit.RoundTrip
import Switching.Proofs.Circuit.WellFormed
import Switching.Proofs.Parser.Conservation
import Switching.Proofs.Pipeline
import Switching.Proofs.Text.NormalForm
import Switching.Proofs.Circuit.Inventory
import Switching.Proofs.Circuit.Locality
import Switching.Proofs.Expr.Extent
import Switching.Proofs.Circuit.Rewiring
import Switching.Proofs.Expr.Recognition
import Switching.Proofs.Parser.Nesting
import Switching.Proofs.Text.Bracketing
import Switching.Proofs.Circuit.Export
import Switching.Proofs.Enumeration
import Switching.Proofs.Text.Lexemes
import Switching.Proofs.Circuit.Placement
import Switching.Proofs.Circuit.Descent
import Switching.Proofs.Text.Separators
import Switching.Proofs.Text.Locality
import Switching.Proofs.Text.Parentheses
import Switching.Proofs.Session
