import Switching.Circuit.Reach
import Switching.Proofs.Circuit.Tracing

/-! Tracing looks at a circuit only from its start backwards. Two circuits that agree there are
traced over the same paths, into one expression or into one error. Positions, edge ids and output
marks have no part in agreement, nor have nodes and edges elsewhere, the order of the nodes beyond
which of them is first with its id, or the order of edges into different targets. -/
namespace Switching.Circuit

variable {α β : Type} {c : Circuit α} {d : Circuit β} {path : List String} {start id : String}
  {n : Node α}

theorem AgreesFrom.absent (agrees : c.AgreesFrom d id) (missing : c.node? id = none) :
    d.node? id = none := by
  have same := agrees.roles id .start
  simpa [role?, missing] using same.symm

theorem AgreesFrom.present (agrees : c.AgreesFrom d id) (found : c.node? id = some n) :
    ∃ m, d.node? id = some m ∧ m.kind = n.kind ∧ m.label = n.label := by
  have same := agrees.roles id .start
  simpa [role?, found, Option.map_eq_some_iff] using same.symm

/-- The path is the same for both circuits, so a gate is met again in both or in neither. -/
theorem Traced.of_agreesFrom {result : Except TraceError Expr} (traced : Traced c path id result)
    (agrees : c.AgreesFrom d id) : Traced d path id result := by
  induction traced with
  | absent missing => exact .absent (agrees.absent missing)
  | input found kind =>
    obtain ⟨m, found', kind', label⟩ := agrees.present found
    rw [← label]
    exact .input found' (kind'.trans kind)
  | output found kind =>
    obtain ⟨m, found', kind', -⟩ := agrees.present found
    exact .output found' (kind'.trans kind)
  | unknown found kind unknown =>
    obtain ⟨m, found', kind', label⟩ := agrees.present found
    rw [← label] at unknown ⊢
    exact .unknown found' (kind'.trans kind) unknown
  | cycle found kind known passed =>
    obtain ⟨m, found', kind', label⟩ := agrees.present found
    rw [← label] at known
    exact .cycle found' (kind'.trans kind) known passed
  | @arity path id n k found kind known fresh refused =>
    obtain ⟨m, found', kind', label⟩ := agrees.present found
    have sources := agrees.sources id n .start found kind
    rw [← label] at known
    rw [sources] at refused ⊢
    exact .arity found' (kind'.trans kind) known fresh refused
  | @operands path id n k results found kind known fresh accepted _ ih =>
    obtain ⟨m, found', kind', label⟩ := agrees.present found
    have sources := agrees.sources id n .start found kind
    -- A source is reached through this gate, so agreement goes on from there.
    have each : ∀ source ∈ c.sources id, Traced d (id :: path) source (results source) := by
      intro source listed
      exact ih source listed (agrees.of_reaches (.source .start ⟨n, found, kind, listed⟩))
    rw [← label] at known
    rw [sources] at accepted each ⊢
    exact .operands found' (kind'.trans kind) known fresh accepted each

theorem AgreesFrom.trace_eq (agrees : c.AgreesFrom d id) (path : List String) :
    c.trace path id = d.trace path id :=
  ((traced c path id).of_agreesFrom agrees).unique (traced d path id)

theorem Reaches.mem_of_closed {ids : List String} (reaches : c.Reaches start id)
    (listed : start ∈ ids) (closed : ∀ x ∈ ids, ∀ source ∈ c.sources x, source ∈ ids) :
    id ∈ ids := by
  induction reaches with
  | start => exact listed
  | source _ feeds ih =>
    obtain ⟨_, _, _, wired⟩ := feeds
    exact closed _ ih _ wired

/-- Agreement is settled by any list of ids that holds the start and all sources of its members. -/
theorem agreesFrom_of_closed (ids : List String) (listed : start ∈ ids)
    (closed : ∀ id ∈ ids, ∀ source ∈ c.sources id, source ∈ ids)
    (same : ∀ id ∈ ids, c.role? id = d.role? id ∧ c.sources id = d.sources id) :
    c.AgreesFrom d start where
  roles id reaches := (same id (reaches.mem_of_closed listed closed)).1
  sources id _ reaches _ _ := (same id (reaches.mem_of_closed listed closed)).2

/-- Circuits whose first outputs are driven from one id, and that agree from there, are traced
alike, whether into an expression or into an error. -/
theorem toExpr_eq_of_agreesFrom {output : Node α} {output' : Node β} {rest rest' : List String}
    (found : c.output? = some output) (driven : c.sources output.id = start :: rest)
    (found' : d.output? = some output') (driven' : d.sources output'.id = start :: rest')
    (agrees : c.AgreesFrom d start) : c.toExpr = d.toExpr := by
  rw [toExpr_of_driven found driven, toExpr_of_driven found' driven', agrees.trace_eq]

theorem toExpr_eq_of_agreesFrom_beside_a_cycle :
    let p : Position Nat := ⟨0, 0⟩
    let c : Circuit Nat := ⟨[.input "a" p, .gate "n" .inverter p, .gate "g" (.gate .and) p,
        .gate "x" (.gate .or) p, .output "out" p],
      [⟨"e0", "input-a", "n", false⟩, ⟨"e1", "n", "g", false⟩, ⟨"e2", "x", "g", false⟩,
        ⟨"e3", "ghost", "x", false⟩, ⟨"e4", "g", "out", true⟩]⟩
    let q : Position Int := ⟨7, -3⟩
    let d : Circuit Int := ⟨[.output "end" q, .gate "x" (.gate .or) q, .gate "lone" .inverter q,
        .gate "g" (.gate .and) q, .gate "n" .inverter q, .input "a" q, .input "n" q],
      [⟨"k", "g", "end", false⟩, ⟨"k", "lone", "lone", true⟩, ⟨"k", "ghost", "x", true⟩,
        ⟨"k", "n", "g", true⟩, ⟨"k", "lone", "end", true⟩, ⟨"k", "x", "g", false⟩,
        ⟨"k", "input-a", "n", true⟩]⟩
    c.output? = some (.output "out" p) ∧ c.sources "out" = ["g"] ∧
    d.output? = some (.output "end" q) ∧ d.sources "end" = ["g", "lone"] ∧
    c.AgreesFrom d "g" ∧ c.toExpr = d.toExpr := by
  intro p c q d
  have found : c.output? = some (.output "out" p) := rfl
  have driven : c.sources "out" = ["g"] := rfl
  have found' : d.output? = some (.output "end" q) := rfl
  have driven' : d.sources "end" = ["g", "lone"] := rfl
  have agrees : c.AgreesFrom d "g" :=
    agreesFrom_of_closed ["g", "n", "x", "input-a", "ghost"] (by decide) (by decide) (by decide)
  exact ⟨found, driven, found', driven', agrees,
    toExpr_eq_of_agreesFrom found driven found' driven' agrees⟩

end Switching.Circuit
