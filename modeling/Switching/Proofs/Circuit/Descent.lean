import Mathlib.Data.List.Dedup
import Mathlib.Data.List.Perm.Subperm
import Switching.Proofs.Circuit.Tracing

/-! How deep tracing descends. A visit of a gate waits for visits of its sources, and the path it
hands on holds the gates that wait, each once. So no more visits wait than there are gate ids, on
cyclic circuits as on others, and the depth of a walk can be limited beforehand. -/
namespace Switching.Circuit

variable {α : Type}

def gateIds (c : Circuit α) : List String := (c.gates.map Node.id).dedup

/-- One call of tracing. -/
structure Visit where
  path : List String
  id : String

/-- A visit of a gate that passes all checks opens visits of its sources, each once those before it
have been traced. -/
inductive Opens (c : Circuit α) : Visit → Visit → Prop
  | source {path id n k before source after} : c.node? id = some n → n.kind = .gate →
      Component.ofLabel? n.label = some k → id ∉ path → k.accepts (c.sources id).length →
      c.sources id = before ++ source :: after →
      (∀ earlier ∈ before, ∃ e, c.trace (id :: path) earlier = .ok e) →
      Opens c ⟨path, id⟩ ⟨id :: path, source⟩

/-- Tracing that gives up, without an answer, where a visit would be nested deeper than a limit. -/
def traceWithin (c : Circuit α) : Nat → List String → String → Option (Except TraceError Expr)
  | 0, _, _ => none
  | limit + 1, path, id =>
    match c.node? id with
    | none => some (.error (.nodeNotFound id))
    | some n =>
      match n.kind with
      | .input => some (.ok (.var n.label))
      | .output => some (.error (.outputAsSource id))
      | .gate =>
        match Component.ofLabel? n.label with
        | none => some (.error (.unknownGate id n.label))
        | some k =>
          if id ∈ path then some (.error (.cycle id))
          else if k.accepts (c.sources id).length then do
            let operands ← (c.sources id).mapM (m := ExceptT TraceError Option)
              (c.traceWithin limit (id :: path))
            return operands.map (assemble k)
          else some (.error (.arity id k (c.sources id).length))

/-- The visits that wait are of gates, each of its own. -/
structure Passed (c : Circuit α) (path : List String) : Prop where
  nodup : path.Nodup
  gates : ∀ id ∈ path, id ∈ c.gateIds

section

variable {c : Circuit α} {path : List String} {id : String} {n : Node α}

theorem mem_gateIds (found : c.node? id = some n) (kind : n.kind = .gate) : id ∈ c.gateIds := by
  have named : n.id = id := by simpa using List.find?_some found
  have listed : n ∈ c.gates :=
    List.mem_filter.mpr ⟨List.mem_of_find?_eq_some found, by simp [kind]⟩
  rw [gateIds, List.mem_dedup]
  exact List.mem_map.mpr ⟨n, listed, named⟩

theorem passed_nil (c : Circuit α) : c.Passed [] := ⟨List.nodup_nil, nofun⟩

theorem Passed.cons (passed : c.Passed path) (found : c.node? id = some n) (kind : n.kind = .gate)
    (fresh : id ∉ path) : c.Passed (id :: path) where
  nodup := List.nodup_cons.mpr ⟨fresh, passed.nodup⟩
  gates := List.forall_mem_cons.mpr ⟨mem_gateIds found kind, passed.gates⟩

theorem Passed.length_le (passed : c.Passed path) : path.length ≤ c.gateIds.length :=
  (List.subperm_of_subset passed.nodup passed.gates).length_le

theorem Opens.passed {visit next : Visit} (opens : c.Opens visit next)
    (passed : c.Passed visit.path) :
    c.Passed next.path ∧ next.path.length = visit.path.length + 1 := by
  cases opens with
  | source found kind _ fresh _ _ _ => exact ⟨passed.cons found kind fresh, rfl⟩

/-- Each visit of a chain waits on one more gate than the visit before it. -/
theorem length_le_of_isChain {visit : Visit} {visits : List Visit} (passed : c.Passed visit.path)
    (chain : (visit :: visits).IsChain c.Opens) :
    visit.path.length + visits.length ≤ c.gateIds.length := by
  induction visits generalizing visit with
  | nil => exact passed.length_le
  | cons next visits ih =>
    obtain ⟨opens, chain⟩ := List.isChain_cons_cons.mp chain
    obtain ⟨passed, longer⟩ := opens.passed passed
    have further := ih passed chain
    rw [List.length_cons]
    omega

theorem mapM_of_answered {ε β γ : Type} {f : β → Except ε γ} {g : β → Option (Except ε γ)}
    {xs : List β} (answered : ∀ x ∈ xs, g x = some (f x)) :
    xs.mapM (m := ExceptT ε Option) g = some (xs.mapM f) := by
  induction xs with
  | nil => rfl
  | cons x xs ih =>
    have rest := ih fun y listed => answered y (List.mem_cons_of_mem _ listed)
    have first := answered x List.mem_cons_self
    rw [List.mapM_cons, List.mapM_cons]
    cases head : f x with
    | error err =>
      rw [head] at first
      simp only [bind, ExceptT.bind, ExceptT.mk, first]
      rfl
    | ok y =>
      rw [head] at first
      simp only [bind, ExceptT.bind, ExceptT.mk, first, Option.bind_some, ExceptT.bindCont, rest]
      cases xs.mapM f <;> rfl

/-- Where the limit leaves room for every gate off the path, nothing is given up. -/
theorem traceWithin_eq {limit : Nat} (passed : c.Passed path)
    (room : c.gateIds.length < limit + path.length) :
    c.traceWithin limit path id = some (c.trace path id) := by
  induction limit generalizing path id with
  | zero =>
    have bounded := passed.length_le
    omega
  | succ limit ih =>
    rw [traceWithin]
    generalize answer : c.trace path id = result
    have traced := answer ▸ traced c path id
    cases traced with
    | absent missing => rw [missing]
    | input found kind => simp only [found, kind]
    | output found kind => simp only [found, kind]
    | unknown found kind label => simp only [found, kind, label]
    | cycle found kind label passed => simp only [found, kind, label, if_pos passed]
    | arity found kind label fresh refused =>
      simp only [found, kind, label, if_neg fresh, if_neg refused]
    | @operands _ _ n k results found kind label fresh accepted each =>
      have longer := passed.cons found kind fresh
      have within : ∀ source ∈ c.sources id,
          c.traceWithin limit (id :: path) source = some (results source) := by
        intro source listed
        rw [(each source listed).unique (traced c (id :: path) source)]
        exact ih longer (by rw [List.length_cons]; omega)
      simp only [found, kind, label, if_neg fresh, if_pos accepted, mapM_of_answered within]
      rfl

end

/-- Tracing ends on every circuit and from every id. Visits nested in each other number no more than
the distinct ids of gates and one, and a walk that may nest no deeper never gives up and has the
answer of tracing. -/
theorem trace_nests_within_gates (c : Circuit α) (start : String) :
    (∀ visits : List Visit, (⟨[], start⟩ :: visits : List Visit).IsChain c.Opens →
      (⟨[], start⟩ :: visits : List Visit).length ≤ c.gateIds.length + 1) ∧
    c.traceWithin (c.gateIds.length + 1) [] start = some (c.trace [] start) := by
  constructor
  · intro visits chain
    have bounded := length_le_of_isChain (passed_nil c) chain
    simpa using bounded
  · exact traceWithin_eq (passed_nil c) (Nat.lt_succ_self _)

/-- On a cycle of two gates, one of them under an id that a third node repeats, three visits
nest. -/
theorem trace_nests_around_a_cycle :
    let origin : Position Nat := ⟨0, 0⟩
    let c : Circuit Nat := ⟨[.input "a" origin, .gate "g" (.gate .and) origin,
      .gate "h" .inverter origin, .gate "g" (.gate .or) origin, .output "out" origin],
      [⟨"e0", "input-a", "g", false⟩, ⟨"e1", "h", "g", false⟩, ⟨"e2", "g", "h", false⟩,
        ⟨"e3", "h", "out", true⟩]⟩
    let visits : List Visit := [⟨[], "h"⟩, ⟨["h"], "g"⟩, ⟨["g", "h"], "h"⟩]
    visits.IsChain c.Opens ∧ visits.length ≤ c.gateIds.length + 1 ∧ c.gateIds.length + 1 = 3 ∧
      c.traceWithin 3 [] "h" = some (c.trace [] "h") := by
  intro origin c visits
  have input : c.trace ["g", "h"] "input-a" = .ok (.var "a") :=
    trace_input (n := .input "a" origin) rfl rfl
  have first : c.Opens ⟨[], "h"⟩ ⟨["h"], "g"⟩ :=
    @Opens.source _ c [] "h" (.gate "h" .inverter origin) .inverter [] "g" [] rfl rfl
      (Component.ofLabel?_name _) (by decide) rfl rfl nofun
  have second : c.Opens ⟨["h"], "g"⟩ ⟨["g", "h"], "h"⟩ :=
    @Opens.source _ c ["h"] "g" (.gate "g" (.gate .and) origin) (.gate .and) ["input-a"] "h" []
      rfl rfl (Component.ofLabel?_name _) (by decide) rfl rfl
      (List.forall_mem_singleton.mpr ⟨_, input⟩)
  have chain : visits.IsChain c.Opens := .cons_cons first (.cons_cons second (.singleton _))
  obtain ⟨bounded, answered⟩ := trace_nests_within_gates c "h"
  exact ⟨chain, bounded _ chain, rfl, answered⟩

end Switching.Circuit
