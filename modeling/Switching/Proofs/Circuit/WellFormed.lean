import Switching.Circuit.WellFormed
import Switching.Proofs.Circuit.Tracing

/-! Tracing accepts the well-formed circuits and no others, and an error is
about something that is wrong. A gate that two others share is traced twice over
paths that do not hold it, so only a gate met on its own path counts as a cycle. -/
namespace Switching.Circuit

variable {α : Type} {c : Circuit α} {path : List String} {id x source : String} {n m : Node α}

theorem Feeds.mem (feeds : c.Feeds source id) : source ∈ c.sources id := by
  obtain ⟨_, _, _, listed⟩ := feeds
  exact listed

theorem Feeds.reaches (feeds : c.Feeds source id) : c.Reaches id source := .source .start feeds

/-- Dependence seen from its start: on itself, or through one of its own sources. -/
theorem Reaches.cases_head (reaches : c.Reaches id x) :
    x = id ∨ ∃ source, c.Feeds source id ∧ c.Reaches source x := by
  induction reaches with
  | start => exact .inl rfl
  | source _ feeds ih =>
    refine .inr ?_
    rcases ih with rfl | ⟨first, leads, further⟩
    · exact ⟨_, feeds, .start⟩
    · exact ⟨first, leads, .source further feeds⟩

theorem not_feeds_of_input (found : c.node? id = some n) (kind : n.kind = .input) :
    ¬ c.Feeds source id := by
  rintro ⟨m, again, gate, -⟩
  obtain rfl := Option.some.inj (found.symm.trans again)
  rw [kind] at gate
  cases gate

theorem Reaches.eq_of_input (found : c.node? id = some n) (kind : n.kind = .input)
    (reaches : c.Reaches id x) : x = id := by
  rcases reaches.cases_head with same | ⟨source, feeds, -⟩
  · exact same
  · exact absurd feeds (not_feeds_of_input found kind)

/-- No gate that a node depends on is on the path to it. -/
def Clear (c : Circuit α) (path : List String) (id : String) : Prop :=
  ∀ x n, c.Reaches id x → c.node? x = some n → n.kind = .gate → x ∉ path

theorem clear_of_input (found : c.node? id = some n) (kind : n.kind = .input) : c.Clear path id := by
  intro x m reaches again gate
  rw [reaches.eq_of_input found kind] at again
  obtain rfl := Option.some.inj (found.symm.trans again)
  rw [kind] at gate
  cases gate

theorem wellFormed_of_input (found : c.node? id = some n) (kind : n.kind = .input) :
    c.WellFormed id := by
  constructor
  case present =>
    intro x reaches
    rw [reaches.eq_of_input found kind]
    exact ⟨n, found, .inl kind⟩
  case wired =>
    intro x m reaches again gate
    have clear : c.Clear [x] id := clear_of_input found kind
    exact absurd List.mem_cons_self (clear x m reaches again gate)
  case acyclic =>
    intro x source reaches feeds
    rw [reaches.eq_of_input found kind] at feeds
    exact absurd feeds (not_feeds_of_input found kind)

/-- A gate over well-formed sources that do not depend on it. -/
theorem wellFormed_of_sources {k : Component} (found : c.node? id = some n) (kind : n.kind = .gate)
    (label : Component.ofLabel? n.label = some k) (accepted : k.accepts (c.sources id).length)
    (each : ∀ source ∈ c.sources id, c.WellFormed source)
    (apart : ∀ source ∈ c.sources id, ¬ c.Reaches source id) : c.WellFormed id := by
  constructor
  case present =>
    intro x reaches
    rcases reaches.cases_head with rfl | ⟨source, feeds, further⟩
    · exact ⟨n, found, .inr kind⟩
    · exact (each source feeds.mem).present x further
  case wired =>
    intro x m reaches again gate
    rcases reaches.cases_head with rfl | ⟨source, feeds, further⟩
    · obtain rfl := Option.some.inj (found.symm.trans again)
      exact ⟨k, label, accepted⟩
    · exact (each source feeds.mem).wired x m further again gate
  case acyclic =>
    intro x source reaches feeds
    rcases reaches.cases_head with rfl | ⟨first, leads, further⟩
    · exact apart source feeds.mem
    · exact (each first leads.mem).acyclic x source further feeds

/-- What is traced without an error is well-formed and depends on no gate of its path. The path
is what carries acyclicity: it holds every gate that leads to the one being traced. -/
theorem Traced.wellFormed {result : Except TraceError Expr} (traced : Traced c path id result)
    {e : Expr} (ok : result = .ok e) : c.WellFormed id ∧ c.Clear path id := by
  induction traced generalizing e with
  | absent | output | unknown | cycle | arity => cases ok
  | input found kind => exact ⟨wellFormed_of_input found kind, clear_of_input found kind⟩
  | @operands path id n k results found kind label fresh accepted _ ih =>
    cases ran : (c.sources id).mapM results with
    | error err =>
      rw [ran] at ok
      cases ok
    | ok es =>
      have each : ∀ source ∈ c.sources id, c.WellFormed source ∧ c.Clear (id :: path) source := by
        intro source listed
        obtain ⟨f, result⟩ := exists_of_mapM_eq_ok ran listed
        exact ih source listed result
      have apart : ∀ source ∈ c.sources id, ¬ c.Reaches source id := fun source listed reaches =>
        (each source listed).2 id n reaches found kind List.mem_cons_self
      refine ⟨wellFormed_of_sources found kind label accepted (fun s h => (each s h).1) apart, ?_⟩
      intro x m reaches again gate
      rcases reaches.cases_head with rfl | ⟨source, feeds, further⟩
      · exact fresh
      · intro passed
        exact (each source feeds.mem).2 x m further again gate (List.mem_cons_of_mem _ passed)

theorem Defect.of_reaches {err : TraceError} (reaches : c.Reaches id source)
    (defect : c.Defect source err) : c.Defect id err := by
  cases err with
  | noOutput => exact defect
  | nodeNotFound _ | outputAsSource _ | unknownGate _ _ | arity _ _ _ | cycle _ =>
    exact ⟨reaches.trans defect.1, defect.2⟩

/-- An error is about a defect, unless a gate of the path has been met again. -/
theorem Traced.defect {result : Except TraceError Expr} (traced : Traced c path id result)
    {err : TraceError} (failed : result = .error err) :
    (∃ x ∈ path, err = .cycle x ∧ c.Reaches id x) ∨ c.Defect id err := by
  induction traced generalizing err with
  | absent missing =>
    cases failed
    exact .inr ⟨.start, missing⟩
  | input => cases failed
  | output found kind =>
    cases failed
    exact .inr ⟨.start, _, found, kind⟩
  | unknown found kind label =>
    cases failed
    exact .inr ⟨.start, _, found, kind, rfl, label⟩
  | cycle found kind label passed =>
    cases failed
    exact .inl ⟨_, passed, rfl, .start⟩
  | arity found kind label fresh refused =>
    cases failed
    exact .inr ⟨.start, _, found, kind, label, rfl, refused⟩
  | @operands path id n k results found kind label fresh accepted _ ih =>
    cases ran : (c.sources id).mapM results with
    | ok es =>
      rw [ran] at failed
      cases failed
    | error other =>
      rw [ran] at failed
      cases failed
      obtain ⟨source, listed, first⟩ := exists_of_mapM_eq_error ran
      have feeds : c.Feeds source id := ⟨n, found, kind, listed⟩
      rcases ih source listed first with ⟨x, passed, rfl, reaches⟩ | defect
      · rcases List.mem_cons.mp passed with rfl | before
        · exact .inr ⟨.start, source, feeds, reaches⟩
        · exact .inl ⟨x, before, rfl, feeds.reaches.trans reaches⟩
      · exact .inr (defect.of_reaches feeds.reaches)

theorem WellFormed.not_defect (wellFormed : c.WellFormed id) (err : TraceError) :
    ¬ c.Defect id err := by
  intro defect
  cases err with
  | noOutput => exact defect
  | nodeNotFound x =>
    obtain ⟨reaches, missing⟩ := defect
    obtain ⟨n, found, -⟩ := wellFormed.present x reaches
    rw [missing] at found
    cases found
  | outputAsSource x =>
    obtain ⟨reaches, n, found, output⟩ := defect
    obtain ⟨m, again, kind⟩ := wellFormed.present x reaches
    obtain rfl := Option.some.inj (found.symm.trans again)
    rw [output] at kind
    rcases kind with kind | kind <;> cases kind
  | unknownGate x label =>
    obtain ⟨reaches, n, found, kind, rfl, unknown⟩ := defect
    obtain ⟨k, known, -⟩ := wellFormed.wired x n reaches found kind
    rw [unknown] at known
    cases known
  | arity x k inputs =>
    obtain ⟨reaches, n, found, kind, label, rfl, refused⟩ := defect
    obtain ⟨k', again, accepted⟩ := wellFormed.wired x n reaches found kind
    obtain rfl := Option.some.inj (label.symm.trans again)
    exact refused accepted
  | cycle x =>
    obtain ⟨reaches, source, feeds, returns⟩ := defect
    exact wellFormed.acyclic x source reaches feeds returns

/-- A circuit whose output is driven is traced without an error exactly if what drives it is
well-formed; otherwise the error names a defect that the circuit has. -/
theorem toExpr_ok_iff_wellFormed {output : Node α} {start : String} {rest : List String}
    (found : c.output? = some output) (driven : c.sources output.id = start :: rest) :
    ((∃ e, c.toExpr = .ok e) ↔ c.WellFormed start) ∧
      (¬ c.WellFormed start → ∃ err, c.toExpr = .error err ∧ c.Defect start err) := by
  have walked : Traced c [] start c.toExpr := by
    rw [toExpr_of_driven found driven]
    exact traced c [] start
  have sound : ∀ e, c.toExpr = .ok e → c.WellFormed start := fun e ok => (walked.wellFormed ok).1
  have reported : ∀ err, c.toExpr = .error err → c.Defect start err := by
    intro err failed
    rcases walked.defect failed with ⟨x, passed, -⟩ | defect
    · cases passed
    · exact defect
  cases result : c.toExpr with
  | ok e =>
    have wellFormed := sound e result
    exact ⟨⟨fun _ => wellFormed, fun _ => ⟨e, rfl⟩⟩, fun malformed => absurd wellFormed malformed⟩
  | error err =>
    have defect := reported err result
    refine ⟨⟨?_, ?_⟩, fun _ => ⟨err, rfl, defect⟩⟩
    · rintro ⟨e, ok⟩
      cases ok
    · intro wellFormed
      exact absurd defect (wellFormed.not_defect err)

/-- Beside a gate that drives itself there is a well-formed part, which shares a gate. While that
part drives the output first, its expression is traced; when the two edges change places, the
circuit is malformed and the error names its cycle. -/
theorem toExpr_ok_iff_wellFormed_beside_a_cycle :
    let p : Position Nat := ⟨0, 0⟩
    let nodes : List (Node Nat) := [.input "a" p, .gate "n" .inverter p, ⟨"n", .gate, "MUX", p⟩,
      .gate "g" (.gate .and) p, .gate "x" .inverter p, .output "out" p]
    let inner : List Edge := [⟨"e0", "input-a", "n", false⟩, ⟨"e1", "n", "g", false⟩,
      ⟨"e2", "n", "g", false⟩, ⟨"e3", "x", "x", false⟩]
    let c : Circuit Nat := ⟨nodes, inner ++ [⟨"e4", "g", "out", true⟩, ⟨"e5", "x", "out", true⟩]⟩
    let d : Circuit Nat := ⟨nodes, inner ++ [⟨"e5", "x", "out", true⟩, ⟨"e4", "g", "out", true⟩]⟩
    (c.output? = some (.output "out" p) ∧ c.sources "out" = ["g", "x"] ∧
      c.toExpr = .ok (.gate .and [.not (.var "a"), .not (.var "a")]) ∧ c.WellFormed "g") ∧
    (d.output? = some (.output "out" p) ∧ d.sources "out" = ["x", "g"] ∧
      ¬ d.WellFormed "x" ∧ d.toExpr = .error (.cycle "x") ∧ d.Defect "x" (.cycle "x")) := by
  intro p nodes inner c d
  constructor
  · have found : c.output? = some (.output "out" p) := rfl
    have driven : c.sources "out" = ["g", "x"] := rfl
    have leaf : c.trace ["n", "g"] "input-a" = .ok (.var "a") :=
      trace_input (n := .input "a" p) rfl rfl
    have shared : c.trace ["g"] "n" = .ok (.not (.var "a")) := by
      rw [trace_gate (n := .gate "n" .inverter p) rfl rfl (Component.ofLabel?_name _) (by decide)]
      exact congrArg (Except.map Expr.not) leaf
    have operands : ["n", "n"].mapM (c.trace ["g"]) = .ok [.not (.var "a"), .not (.var "a")] :=
      mapM_eq_ok.mpr (by simp [shared])
    have ok : c.toExpr = .ok (.gate .and [.not (.var "a"), .not (.var "a")]) := by
      rw [toExpr_of_driven found driven, trace_gate (n := .gate "g" (.gate .and) p) rfl rfl
        (Component.ofLabel?_name _) (by decide)]
      exact congrArg (Except.map (Expr.gate .and)) operands
    exact ⟨found, driven, ok, (toExpr_ok_iff_wellFormed found driven).1.mp ⟨_, ok⟩⟩
  · have found : d.output? = some (.output "out" p) := rfl
    have driven : d.sources "out" = ["x", "g"] := rfl
    have label : Component.ofLabel? "NOT" = some .inverter := Component.ofLabel?_name .inverter
    have again : d.trace ["x"] "x" = .error (.cycle "x") :=
      (traced d ["x"] "x").unique (.cycle (n := .gate "x" .inverter p) rfl rfl label (by decide))
    have failed : d.toExpr = .error (.cycle "x") := by
      rw [toExpr_of_driven found driven, trace_gate (n := .gate "x" .inverter p) rfl rfl label
        (by decide)]
      exact congrArg (Except.map Expr.not) again
    have feeds : d.Feeds "x" "x" := ⟨.gate "x" .inverter p, rfl, rfl, by decide⟩
    have malformed : ¬ d.WellFormed "x" := fun wellFormed =>
      wellFormed.acyclic "x" "x" .start feeds .start
    obtain ⟨err, failed', defect⟩ := (toExpr_ok_iff_wellFormed found driven).2 malformed
    obtain rfl := Except.error.inj (failed.symm.trans failed')
    exact ⟨found, driven, malformed, failed, defect⟩

end Switching.Circuit
