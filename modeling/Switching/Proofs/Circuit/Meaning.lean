import Switching.Circuit.Reach
import Switching.Proofs.Circuit.Tracing

/-! What is traced means what the circuit computes: the tree that a circuit of
shared nodes unfolds to has the value that any consistent labelling gives the
node it is traced from. -/
namespace Switching.Circuit

open Switching.Expr

variable {α : Type} {c : Circuit α} {path : List String} {id : String} {n : Node α}
  {v : String → Bool} {label : String → Bool}

theorem id_of_node? (found : c.node? id = some n) : n.id = id := by
  simpa using List.find?_some found

theorem eval_assemble {k : Component} {es : List Expr} (accepted : k.accepts es.length)
    (v : String → Bool) : (assemble k es).eval v = k.eval (es.map (eval v)) := by
  cases k with
  | inverter =>
    obtain ⟨e, rfl⟩ := List.length_eq_one_iff.mp ((Component.accepts_inverter _).mp accepted)
    rfl
  | gate g => exact eval_gate v g es

theorem consistent_of_nodes
    (each : ∀ n ∈ c.nodes, c.node? n.id = some n → c.ConsistentAt v label n) :
    c.Consistent v label := by
  intro id n found
  obtain rfl := id_of_node? found
  exact each n (List.mem_of_find?_eq_some found) found

theorem label_of_input (consistent : c.ConsistentAt v label n) (found : c.node? id = some n)
    (kind : n.kind = .input) : label id = nameValue v n.label := by
  rw [ConsistentAt, kind, id_of_node? found] at consistent
  exact consistent

theorem label_of_gate {k : Component} (consistent : c.ConsistentAt v label n)
    (found : c.node? id = some n) (kind : n.kind = .gate)
    (known : Component.ofLabel? n.label = some k) :
    label id = k.eval ((c.sources id).map label) := by
  rw [ConsistentAt, kind, id_of_node? found] at consistent
  exact consistent k known

theorem Traced.eval {result : Except TraceError Expr} (traced : Traced c path id result)
    (consistent : c.ConsistentFrom id v label) {e : Expr} (ok : result = .ok e) :
    e.eval v = label id := by
  induction traced generalizing e with
  | absent | output | unknown | cycle | arity => cases ok
  | input found kind =>
    cases ok
    rw [eval_var, label_of_input (consistent _ _ .start found) found kind]
  | @operands path id n k results found kind known fresh accepted _ ih =>
    cases ran : (c.sources id).mapM results with
    | error err =>
      rw [ran] at ok
      cases ok
    | ok es =>
      rw [ran] at ok
      cases ok
      have values : es.map (Expr.eval v) = (c.sources id).map label := by
        refine map_eq_of_mapM_eq_ok ran fun source listed _ answered => ih source listed ?_ answered
        exact consistent.of_reaches (.source .start ⟨n, found, kind, listed⟩)
      have count : es.length = (c.sources id).length := by simpa using congrArg List.length values
      rw [eval_assemble (count ▸ accepted), values,
        label_of_gate (consistent _ _ .start found) found kind known]

/-- A traced expression has the value that any consistent labelling gives to what drives the
output, however the circuit shares its nodes. The labelling need not be consistent elsewhere. -/
theorem eval_toExpr {output : Node α} {start : String} {rest : List String} {e : Expr}
    (found : c.output? = some output) (driven : c.sources output.id = start :: rest)
    (ok : c.toExpr = .ok e) (consistent : c.ConsistentFrom start v label) :
    e.eval v = label start := by
  rw [toExpr_of_driven found driven] at ok
  exact (traced c [] start).eval consistent ok

theorem eval_toExpr_of_shared_gate :
    let p : Position Nat := ⟨0, 0⟩
    let c : Circuit Nat := ⟨[.gate "n" .inverter p, .output "out" p, .input "a" p,
        ⟨"n", .gate, "MUX", p⟩, .gate "g" (.gate .xor) p, .input "1" p],
      [⟨"e0", "g", "out", true⟩, ⟨"e1", "n", "g", false⟩, ⟨"e2", "input-a", "n", false⟩,
        ⟨"e3", "n", "g", false⟩, ⟨"e4", "input-1", "g", false⟩, ⟨"e5", "ghost", "out", true⟩]⟩
    let e := Expr.gate .xor [.not (.var "a"), .not (.var "a"), .var "1"]
    let v : String → Bool := fun _ => false
    let label : String → Bool := fun id => id ≠ "input-a"
    c.output? = some (.output "out" p) ∧ c.sources "out" = ["g", "ghost"] ∧ c.toExpr = .ok e ∧
    c.ConsistentFrom "g" v label ∧ e.eval v = label "g" := by
  intro p c e v label
  have found : c.output? = some (.output "out" p) := rfl
  have driven : c.sources "out" = ["g", "ghost"] := rfl
  have shared : c.trace ["g"] "n" = .ok (.not (.var "a")) := by
    rw [trace_gate (n := .gate "n" .inverter p) rfl rfl (Component.ofLabel?_name _) (by decide)]
    exact congrArg (Except.map Expr.not) (trace_input (n := .input "a" p) rfl rfl)
  have constant : c.trace ["g"] "input-1" = .ok (.var "1") :=
    trace_input (n := .input "1" p) rfl rfl
  have operands : ["n", "n", "input-1"].mapM (c.trace ["g"]) =
      .ok [.not (.var "a"), .not (.var "a"), .var "1"] :=
    mapM_eq_ok.mpr (by simp [shared, constant])
  have ok : c.toExpr = .ok e := by
    rw [toExpr_of_driven found driven, trace_gate (n := .gate "g" (.gate .xor) p) rfl rfl
      (Component.ofLabel?_name _) (by decide)]
    exact congrArg (Except.map (Expr.gate .xor)) operands
  have consistent : c.Consistent v label := by
    apply consistent_of_nodes
    simp only [c, List.forall_mem_cons]
    refine ⟨fun _ k known => ?_, fun _ => trivial, fun _ => rfl, fun later => ?_,
      fun _ k known => ?_, fun _ => rfl, List.forall_mem_nil _⟩
    · obtain rfl := Option.some.inj ((Component.ofLabel?_name .inverter).symm.trans known)
      rfl
    · exact absurd later (by decide)
    · obtain rfl := Option.some.inj ((Component.ofLabel?_name (.gate .xor)).symm.trans known)
      rfl
  exact ⟨found, driven, ok, consistent.from _, eval_toExpr found driven ok (consistent.from _)⟩

end Switching.Circuit
