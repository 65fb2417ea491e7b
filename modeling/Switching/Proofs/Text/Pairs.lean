import Mathlib.Data.List.Infix
import Switching.Proofs.Parser.Grouping
import Switching.Proofs.Text.Written

/-! Matching parentheses. A pair matches if what stands between is balanced. In balanced parts put
one behind the other every matching pair lies within one part, and scanning keeps what matches. -/
namespace Switching

/-- As many are closed as are opened, and none is closed before it is opened. -/
def Balanced {α : Type} [BEq α] (opening closing : α) (xs : List α) : Prop :=
  xs.count closing = xs.count opening ∧
    ∀ lead, lead <+: xs → lead.count closing ≤ lead.count opening

section

variable {α : Type} [DecidableEq α] {opening closing : α} {xs ys inner before behind : List α}

instance : Decidable (Balanced opening closing xs) :=
  decidable_of_iff (xs.count closing = xs.count opening ∧
    ∀ lead ∈ xs.inits, lead.count closing ≤ lead.count opening) (by simp [Balanced])

theorem Balanced.append (first : Balanced opening closing xs)
    (second : Balanced opening closing ys) : Balanced opening closing (xs ++ ys) := by
  constructor
  · rw [List.count_append, List.count_append, first.1, second.1]
  · rintro lead ⟨rest, split⟩
    rcases List.append_eq_append_iff.mp split with ⟨part, rfl, -⟩ | ⟨part, rfl, later⟩
    · exact first.2 lead (List.prefix_append _ _)
    · have within := second.2 part ⟨rest, later.symm⟩
      have total := first.1
      rw [List.count_append, List.count_append]
      omega

theorem Balanced.group (balanced : Balanced opening closing xs) (distinct : opening ≠ closing) :
    Balanced opening closing (opening :: xs ++ [closing]) := by
  constructor
  · simp [distinct, distinct.symm, balanced.1]
  · intro lead starts
    cases lead with
    | nil => simp
    | cons x lead =>
      obtain ⟨rfl, further⟩ := List.cons_prefix_cons.mp starts
      rcases List.prefix_concat_iff.mp further with rfl | within
      · simp [distinct, distinct.symm, balanced.1]
      · have counted := balanced.2 lead within
        simp [distinct]
        omega

theorem balanced_of_notMem (opens : opening ∉ xs) (closes : closing ∉ xs) :
    Balanced opening closing xs := by
  constructor
  · rw [List.count_eq_zero_of_not_mem opens, List.count_eq_zero_of_not_mem closes]
  · intro lead starts
    rw [List.count_eq_zero_of_not_mem fun listed => closes (starts.subset listed)]
    exact Nat.zero_le _

/-- A matching pair does not cross the end of what is balanced. -/
theorem Balanced.pair_append (balanced : Balanced opening closing xs)
    (matching : Balanced opening closing inner) (distinct : opening ≠ closing)
    (split : xs ++ ys = before ++ (opening :: inner ++ closing :: behind)) :
    (∃ rest, xs = before ++ (opening :: inner ++ closing :: rest) ∧ behind = rest ++ ys) ∨
      ∃ lead, before = xs ++ lead ∧ ys = lead ++ (opening :: inner ++ closing :: behind) := by
  rcases List.append_eq_append_iff.mp split with ⟨lead, rfl, later⟩ | ⟨part, rfl, later⟩
  · exact .inr ⟨lead, rfl, later⟩
  · have outside := balanced.2 before (List.prefix_append _ _)
    have total := balanced.1
    cases part with
    | nil => exact .inr ⟨[], by simp, by simpa using later.symm⟩
    | cons x part =>
      obtain ⟨rfl, further⟩ : opening = x ∧ inner ++ closing :: behind = part ++ ys :=
        List.cons.inj later
      rcases List.append_eq_append_iff.mp further with ⟨rest, rfl, closes⟩ | ⟨rest, rfl, -⟩
      · cases rest with
        | nil =>
          exfalso
          simp [distinct, matching.1] at total
          omega
        | cons y rest =>
          obtain ⟨rfl, rfl⟩ := List.cons.inj closes
          exact .inl ⟨rest, by simp, rfl⟩
      · -- The part ends between the two, where more has been opened than closed.
        exfalso
        have within := matching.2 part (List.prefix_append _ _)
        simp [distinct] at total
        omega

/-- What is balanced ends where the parenthesis around it is closed. -/
theorem Balanced.append_closing_inj (balanced : Balanced opening closing xs)
    (matching : Balanced opening closing inner) (distinct : opening ≠ closing)
    (same : xs ++ closing :: ys = inner ++ closing :: behind) : inner = xs ∧ behind = ys := by
  have outside {us vs rest : List α} (first : Balanced opening closing us)
      (second : Balanced opening closing vs) (longer : vs = us ++ closing :: rest) : False := by
    have within := second.2 (us ++ [closing]) ⟨rest, by simp [longer]⟩
    have total := first.1
    simp [distinct.symm] at within
    omega
  rcases List.append_eq_append_iff.mp same with ⟨part, longer, later⟩ | ⟨part, longer, later⟩
  · cases part with
    | nil => exact ⟨by simpa using longer, (List.cons.inj later).2.symm⟩
    | cons x part =>
      obtain ⟨rfl, -⟩ := List.cons.inj later
      exact (outside balanced matching longer).elim
  · cases part with
    | nil => exact ⟨by simpa using longer.symm, (List.cons.inj later).2⟩
    | cons x part =>
      obtain ⟨rfl, -⟩ := List.cons.inj later
      exact (outside matching balanced longer).elim

/-- A matching pair in a group is that of the group, lies within it or follows it. -/
theorem Balanced.pair_group (balanced : Balanced opening closing xs)
    (matching : Balanced opening closing inner) (distinct : opening ≠ closing)
    (split : opening :: xs ++ closing :: ys = before ++ (opening :: inner ++ closing :: behind)) :
    (before = [] ∧ inner = xs ∧ behind = ys) ∨
      (∃ lead rest, before = opening :: lead ∧ xs = lead ++ (opening :: inner ++ closing :: rest) ∧
        behind = rest ++ closing :: ys) ∨
      ∃ lead, before = opening :: xs ++ closing :: lead ∧
        ys = lead ++ (opening :: inner ++ closing :: behind) := by
  cases before with
  | nil =>
    have same : xs ++ closing :: ys = inner ++ closing :: behind := (List.cons.inj split).2
    obtain ⟨rfl, rfl⟩ := balanced.append_closing_inj matching distinct same
    exact .inl ⟨rfl, rfl, rfl⟩
  | cons x lead =>
    obtain ⟨rfl, further⟩ : opening = x ∧
        xs ++ closing :: ys = lead ++ (opening :: inner ++ closing :: behind) := List.cons.inj split
    rcases balanced.pair_append matching distinct further with
      ⟨rest, within, later⟩ | ⟨between, rfl, later⟩
    · exact .inr (.inl ⟨lead, rest, rfl, within, later⟩)
    · cases between with
      | nil => exact absurd (List.cons.inj later).1 distinct.symm
      | cons y between =>
        obtain ⟨rfl, last⟩ : closing = y ∧
            ys = between ++ (opening :: inner ++ closing :: behind) := List.cons.inj later
        exact .inr (.inr ⟨between, rfl, last⟩)

theorem balanced_filterMap {side : α → Option Bool} (opens : ∀ x, side x = some true ↔ x = opening)
    (closes : ∀ x, side x = some false ↔ x = closing) :
    Balanced true false (xs.filterMap side) ↔ Balanced opening closing xs := by
  have openings (xs : List α) : (xs.filterMap side).count true = xs.count opening := by
    rw [List.count_filterMap, List.count_eq_countP]
    exact List.countP_congr fun x _ => by simp [opens]
  have closings (xs : List α) : (xs.filterMap side).count false = xs.count closing := by
    rw [List.count_filterMap, List.count_eq_countP]
    exact List.countP_congr fun x _ => by simp [closes]
  rw [Balanced, Balanced, openings, closings]
  refine and_congr Iff.rfl ⟨fun within lead starts => ?_, fun within sides starts => ?_⟩
  · have counted := within _ (starts.filterMap side)
    rwa [openings, closings] at counted
  · obtain ⟨lead, first, rfl⟩ := List.prefix_filterMap_iff.mp starts
    rw [openings, closings]
    exact within lead first

end

namespace Token

def side? : Token → Option Bool
  | .leftParen => some true
  | .rightParen => some false
  | _ => none

theorem side?_of_ofChar? {c : Char} (run : c.isAlphanum) : (ofChar? c).bind side? = none := by
  cases token : ofChar? c with
  | none => rfl
  | some t =>
    obtain ⟨-, -, ⟨-, named⟩ | ⟨outside, -⟩⟩ := ofChar?_cases token
    · cases t <;> first | rfl | cases named
    · exact absurd (run.symm.trans outside) (by decide)

theorem sides_ofWord (word : List Char) : (ofWord word).filterMap side? = [] := by
  rw [ofWord]
  split <;> simp [side?]

theorem sides_scanAfter (word text : List Char) : (scanAfter word text).filterMap side? =
    text.filterMap fun c => (ofChar? c).bind side? := by
  induction text generalizing word with
  | nil => exact sides_ofWord word
  | cons c rest ih =>
    by_cases longer : prolongs word c
    · have sideless := side?_of_ofChar? (isAlphanum_of_prolongs longer)
      rw [scanAfter, if_pos longer, ih, List.filterMap_cons, sideless]
    · rw [scanAfter, if_neg longer, List.filterMap_append, List.filterMap_append, sides_ofWord, ih,
        List.filterMap_cons]
      cases token : ofChar? c with
      | none => simp
      | some t => cases side : t.side? <;> simp [side]

theorem side?_ofChar?_iff (c : Char) : ((ofChar? c).bind side? = some true ↔ c = '(') ∧
    ((ofChar? c).bind side? = some false ↔ c = ')') := by
  unfold ofChar?
  split
  case h_6 other₁ other₂ _ _ _ =>
    have sideless : ((Operator.ofChar? c).map Token.operator).bind side? = none := by
      cases Operator.ofChar? c <;> rfl
    rw [sideless]
    exact ⟨⟨nofun, fun same => (other₁ same).elim⟩, ⟨nofun, fun same => (other₂ same).elim⟩⟩
  all_goals simp [side?]

/-- Parentheses match in a text as they do among its tokens. -/
theorem balanced_ofChars (text : List Char) :
    Balanced .leftParen .rightParen (ofChars text) ↔ Balanced '(' ')' text := by
  have tokens (ts : List Token) :
      Balanced true false (ts.filterMap side?) ↔ Balanced .leftParen .rightParen ts :=
    balanced_filterMap (fun t => by cases t <;> simp [side?]) (fun t => by cases t <;> simp [side?])
  rw [← tokens, ofChars, filterMap_insertProducts rfl, sides_scanAfter,
    balanced_filterMap (fun c => (side?_ofChar?_iff c).1) (fun c => (side?_ofChar?_iff c).2)]

end Token

end Switching
