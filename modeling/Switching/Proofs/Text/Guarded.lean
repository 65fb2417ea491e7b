import Switching.Proofs.Text.Pairs

/-! What stands beside the parentheses of written text. Between two that match there is always a sum
or a product, and behind or in front of them an operator that would take part of it, or of which
it is the first operand. This is kept when pieces are negated or joined. -/
namespace Switching.Printer

open Token Switching.Expr

/-- A group beside an operator that binds tighter, or a sum that stands behind a gate or in front
of the operator of another sum. -/
inductive Kept (before inner behind : List Token) : Prop
  | tighter {op outer rest} : Joined op inner → behind = .operator outer :: rest →
      op.precedence < outer.precedence → Kept before inner behind
  | behindGate {op outer g lead} : Joined op inner → op.precedence = 2 →
      before = lead ++ [.operator outer] → outer.component = .gate g → Kept before inner behind
  | beforeSum {op outer rest} : Joined op inner → op.precedence = 2 →
      behind = .operator outer :: rest → outer.precedence = 2 → Kept before inner behind

/-- Every matching pair is kept by what stands beside it. -/
def Guarded (ts : List Token) : Prop :=
  ∀ before inner behind, ts = before ++ (.leftParen :: inner ++ .rightParen :: behind) →
    Balanced .leftParen .rightParen inner → Kept before inner behind

/-- Guarded tokens, or a sum in parentheses that an operator beside it will guard. -/
inductive Part : List Token → Prop
  | bare {ts} : Balanced .leftParen .rightParen ts → Guarded ts → Part ts
  | sum {ts op} : Balanced .leftParen .rightParen ts → Guarded ts → Joined op ts →
      op.precedence = 2 → Part (.leftParen :: ts ++ [.rightParen])

section

variable {before inner behind ts us : List Token} {op : Operator} {g : Gate}

theorem Kept.joined (kept : Kept before inner behind) : ∃ op, Joined op inner := by
  cases kept with
  | tighter joined | behindGate joined | beforeSum joined => exact ⟨_, joined⟩

theorem Kept.extend (kept : Kept before inner behind) (lead rest : List Token) :
    Kept (lead ++ before) inner (behind ++ rest) := by
  cases kept with
  | tighter joined follows tighter => exact .tighter joined (by rw [follows]; rfl) tighter
  | behindGate joined sum precedes gated =>
    exact .behindGate joined sum (by rw [precedes, ← List.append_assoc]) gated
  | beforeSum joined sum follows level => exact .beforeSum joined sum (by rw [follows]; rfl) level

theorem Part.balanced (part : Part ts) : Balanced .leftParen .rightParen ts := by
  cases part with
  | bare balanced _ => exact balanced
  | sum balanced _ _ _ => exact balanced.group nofun

/-- A matching pair of a part is kept, or it is the whole part and holds a sum. -/
theorem Part.pair (part : Part ts)
    (split : ts = before ++ (.leftParen :: inner ++ .rightParen :: behind))
    (matching : Balanced .leftParen .rightParen inner) : Kept before inner behind ∨
      before = [] ∧ behind = [] ∧ ∃ op, Joined op inner ∧ op.precedence = 2 := by
  cases part with
  | bare _ guarded => exact .inl (guarded _ _ _ split matching)
  | @sum ts op balanced guarded joined sum =>
    rcases balanced.pair_group matching nofun split with
      ⟨rfl, rfl, rfl⟩ | ⟨lead, rest, rfl, within, rfl⟩ | ⟨lead, rfl, later⟩
    · exact .inr ⟨rfl, rfl, op, joined, sum⟩
    · exact .inl ((guarded _ _ _ within matching).extend [.leftParen] [.rightParen])
    · simp at later

/-- Parts with a gate between them guard each other. -/
theorem Part.join (left : Part ts) (right : Part us) (gated : op.component = .gate g) :
    Guarded (ts ++ .operator op :: us) := by
  intro before inner behind split matching
  rcases left.balanced.pair_append matching nofun split with
    ⟨rest, within, rfl⟩ | ⟨lead, rfl, later⟩
  · rcases left.pair within matching with kept | ⟨rfl, rfl, inside, joined, sum⟩
    · exact kept.extend [] _
    · have level := precedence_of_gate gated
      rcases g.precedence_cases with two | three
      · exact .beforeSum joined sum rfl (level.trans two)
      · exact .tighter joined rfl (by omega)
  · cases lead with
    | nil => exact absurd (List.cons.inj later).1 nofun
    | cons t lead =>
      obtain ⟨rfl, within⟩ : .operator op = t ∧
          us = lead ++ (.leftParen :: inner ++ .rightParen :: behind) := List.cons.inj later
      rcases right.pair within matching with kept | ⟨rfl, rfl, inside, joined, sum⟩
      · have extended := kept.extend (ts ++ [.operator op]) []
        rwa [List.append_assoc, List.append_nil] at extended
      · exact .behindGate joined sum rfl gated

theorem balanced_between (left : Balanced .leftParen .rightParen ts) (op : Operator)
    (right : Balanced .leftParen .rightParen us) :
    Balanced .leftParen .rightParen (ts ++ .operator op :: us) := by
  have middle : Balanced .leftParen .rightParen [Token.operator op] :=
    balanced_of_notMem (by simp) (by simp)
  exact left.append (middle.append right)

theorem guarded_quote (balanced : Balanced .leftParen .rightParen ts) (guarded : Guarded ts) :
    Guarded (ts ++ [.operator .postfixNot]) := by
  intro before inner behind split matching
  rcases balanced.pair_append matching nofun split with ⟨rest, within, rfl⟩ | ⟨lead, -, later⟩
  · exact (guarded _ _ _ within matching).extend [] _
  · have listed : .leftParen ∈ [Token.operator .postfixNot] := by simp [later]
    simp at listed

theorem guarded_group_quote (balanced : Balanced .leftParen .rightParen ts) (guarded : Guarded ts)
    (joined : Joined op ts) (gated : op.component = .gate g) :
    Guarded (.leftParen :: ts ++ .rightParen :: [.operator .postfixNot]) := by
  intro before inner behind split matching
  rcases balanced.pair_group matching nofun split with
    ⟨rfl, rfl, rfl⟩ | ⟨lead, rest, rfl, within, rfl⟩ | ⟨lead, -, later⟩
  · have level := precedence_of_gate gated
    have quote : Operator.precedence .postfixNot = 4 := rfl
    rcases g.precedence_cases with two | three <;> exact .tighter joined rfl (by omega)
  · exact (guarded _ _ _ within matching).extend [.leftParen] _
  · have listed : .leftParen ∈ [Token.operator .postfixNot] := by simp [later]
    simp at listed

theorem part_intercalate {parts : List (List Token)} (gated : op.component = .gate g)
    (given : parts ≠ []) (each : ∀ ts ∈ parts, Part ts) :
    Part ([.operator op].intercalate parts) := by
  induction parts with
  | nil => exact absurd rfl given
  | cons ts parts ih =>
    rw [List.forall_mem_cons] at each
    cases parts with
    | nil => simpa using each.1
    | cons us parts =>
      have rest := ih (by simp) each.2
      rw [List.intercalate_cons_cons, List.append_assoc, List.singleton_append]
      exact .bare (balanced_between each.1.balanced op rest.balanced) (each.1.join rest gated)

theorem guarded_intercalate {parts : List (List Token)} (gated : op.component = .gate g)
    (several : 2 ≤ parts.length) (each : ∀ ts ∈ parts, Part ts) :
    Guarded ([.operator op].intercalate parts) := by
  match parts, several, each with
  | ts :: us :: parts, _, each =>
    rw [List.forall_mem_cons] at each
    rw [List.intercalate_cons_cons, List.append_assoc, List.singleton_append]
    exact each.1.join (part_intercalate gated (by simp) each.2) gated

/-- Parts that read as a sum wherever some of them are joined. -/
theorem joined_intercalate {ps : List Piece} {tokens : Piece → List Token} (several : 2 ≤ ps.length)
    (reads : ∀ qs, qs ≠ [] → qs ⊆ ps →
      ∃ e, Reads .sum ([.operator op].intercalate (qs.map tokens)) [e]) :
    Joined op ([.operator op].intercalate (ps.map tokens)) := by
  match ps, several, reads with
  | p :: q :: rest, _, reads =>
    obtain ⟨e, first⟩ := reads [p] (by simp) (by simp)
    obtain ⟨f, others⟩ := reads (q :: rest) (by simp) (by simp)
    obtain ⟨h, whole⟩ := reads (p :: q :: rest) (by simp) (List.Subset.refl _)
    rw [List.map_singleton, List.intercalate_singleton] at first
    rw [List.map_cons, List.map_cons, List.intercalate_cons_cons, List.append_assoc,
      List.singleton_append] at whole ⊢
    exact .intro first others whole

end

/-- What is kept of a piece when it is negated or joined. -/
structure Keeps (p : Piece) : Prop where
  balanced : Balanced .leftParen .rightParen (ofChars p.text)
  guarded : Guarded (ofChars p.text)
  joined : p.binding ≠ .atom →
    ∃ op, Joined op (ofChars p.text) ∧ op.component = .gate p.binding.gate

section

variable {p : Piece} {ps : List Piece} {m : GateMark}

theorem Written.level (written : Written p) (sum : p.binding = .sum m) : m.gate.precedence = 2 := by
  obtain ⟨o, spells⟩ := written.exists_spells
  have reading := spells.reading
  rw [sum] at reading
  exact reading.1

theorem Keeps.part_parenthesized (keeps : Keeps p) (written : Written p)
    (sum : p.binding = .sum m) : Part (ofChars p.parenthesized) := by
  obtain ⟨op, joined, gated⟩ := keeps.joined (by simp [sum])
  have level : op.precedence = 2 := by
    rw [precedence_of_gate gated, sum]
    exact written.level sum
  rw [ofChars_parenthesized]
  exact .sum keeps.balanced keeps.guarded joined level

theorem Keeps.part_asFactor (keeps : Keeps p) (written : Written p) :
    Part (ofChars p.asFactor) := by
  rw [Piece.asFactor]
  split
  · rename_i m sum
    exact keeps.part_parenthesized written sum
  · exact .bare keeps.balanced keeps.guarded

theorem Keeps.part_asTerm (keeps : Keeps p) (written : Written p) (m : GateMark) :
    Part (ofChars (p.asTerm m)) := by
  rw [Piece.asTerm]
  split
  · rename_i other sum
    split
    · exact .bare keeps.balanced keeps.guarded
    · exact keeps.part_parenthesized written sum
  · exact .bare keeps.balanced keeps.guarded

theorem exists_reads_product (written : ∀ p ∈ ps, Written p) (given : ps ≠ []) :
    ∃ e, Reads .sum ([Token.product].intercalate (ps.map fun p => ofChars p.asFactor)) [e] := by
  obtain ⟨os, spelled⟩ := exists_forall₂ fun p listed => (written p listed).exists_spells
  rw [← ofChars_product written]
  exact ⟨_, (spells_product spelled given).reads_sum⟩

theorem exists_reads_sum (level : m.gate.precedence = 2) (written : ∀ p ∈ ps, Written p)
    (given : ps ≠ []) :
    ∃ e, Reads .sum ([Token.operator (.mark m)].intercalate (ps.map fun p => ofChars (p.asTerm m)))
      [e] := by
  obtain ⟨os, spelled⟩ := exists_forall₂ fun p listed => (written p listed).exists_spells
  rw [← ofChars_sum]
  exact ⟨_, (spells_sum level spelled given).reads_sum⟩

theorem Written.balanced (written : Written p) :
    Balanced .leftParen .rightParen (ofChars p.text) := by
  obtain ⟨o, spells⟩ := written.exists_spells
  have closed := Parser.closes_of_ofTokens (Expr.ofTokens_of_reads spells.reads_sum)
  simpa [Balanced, Place.start] using Place.count_of_closes closed

theorem keeps_name {name : String} (legible : isLegible name) : Keeps ⟨name.toList, .atom⟩ where
  balanced := (Written.name legible).balanced
  guarded before inner behind split _ := by
    have listed : Token.leftParen ∈ ofChars name.toList := by
      rw [show ofChars name.toList = _ from split]
      simp
    simp [ofChars_name legible] at listed
  joined other := absurd rfl other

theorem ofChars_negate (other : p.binding ≠ .atom) : ofChars p.negate.text =
    .leftParen :: ofChars p.text ++ .rightParen :: [.operator .postfixNot] := by
  obtain ⟨text, binding⟩ := p
  cases binding with
  | atom => exact absurd rfl other
  | product | sum m =>
    refine (ofChars_quote _).trans ?_
    rw [ofChars_parenthesized, List.append_assoc]
    rfl

theorem Keeps.negate (keeps : Keeps p) (written : Written p) : Keeps p.negate where
  balanced := written.negate.balanced
  guarded := by
    by_cases atom : p.binding = .atom
    · have quoted : p.negate.text = p.text ++ ['\''] := by rw [Piece.negate, atom]
      rw [quoted, ofChars_quote]
      exact guarded_quote keeps.balanced keeps.guarded
    · obtain ⟨op, joined, gated⟩ := keeps.joined atom
      rw [ofChars_negate atom]
      exact guarded_group_quote keeps.balanced keeps.guarded joined gated
  joined other := by
    obtain ⟨text, binding⟩ := p
    cases binding <;> exact absurd rfl other

theorem keeps_product (several : 2 ≤ ps.length) (written : ∀ p ∈ ps, Written p)
    (keeps : ∀ p ∈ ps, Keeps p) : Keeps (product ps) where
  balanced := (Written.product several written).balanced
  guarded := by
    rw [ofChars_product written]
    apply guarded_intercalate (g := .and) rfl (by simpa using several)
    exact List.forall_mem_map.mpr fun p listed => (keeps p listed).part_asFactor (written p listed)
  joined _ := by
    rw [ofChars_product written]
    refine ⟨.mark .star, joined_intercalate several fun qs given within => ?_, rfl⟩
    have inside : ∀ q ∈ qs, Written q := fun q member => written q (within member)
    exact exists_reads_product inside given

theorem keeps_sum (listed : m ∈ [GateMark.plus, .caret, .circledDot]) (several : 2 ≤ ps.length)
    (written : ∀ p ∈ ps, Written p) (keeps : ∀ p ∈ ps, Keeps p) : Keeps (sum m ps) where
  balanced := (Written.sum listed several written).balanced
  guarded := by
    rw [ofChars_sum]
    apply guarded_intercalate (g := m.gate) rfl (by simpa using several)
    exact List.forall_mem_map.mpr fun p member => (keeps p member).part_asTerm (written p member) m
  joined _ := by
    rw [ofChars_sum]
    refine ⟨.mark m, joined_intercalate several fun qs given within => ?_, rfl⟩
    have inside : ∀ q ∈ qs, Written q := fun q member => written q (within member)
    exact exists_reads_sum (precedence_of_mem listed) inside given

/-- Every pair of parentheses in written text is kept by what stands beside it. -/
theorem Written.keeps (written : Written p) : Keeps p := by
  induction written with
  | name legible => exact keeps_name legible
  | negate written ih => exact ih.negate written
  | product several written ih => exact keeps_product several written ih
  | sum listed several written ih => exact keeps_sum listed several written ih

end

end Switching.Printer
