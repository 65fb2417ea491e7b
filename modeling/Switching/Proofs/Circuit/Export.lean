import Switching.Circuit.Dot

/-! What a circuit in the DOT language tells about it. A backslash goes before every quote of a
text, so a quoted text ends at its first bare quote whatever it holds; a line ends where its last
word does; and the lines of a rank end at the first brace, since each of them begins with a quote. -/
namespace Switching

namespace Dot

variable {α β : Type}

/-- What is written of a value tells which value it is and where it ends, and starts with a
character that `opens` accepts. -/
structure SelfDelimiting (write : β → List Char) (opens : Char → Bool) : Prop where
  starts : ∀ x, (write x).head?.any opens
  append_iff : ∀ x y rest others, write x ++ rest = write y ++ others ↔ x = y ∧ rest = others

section

variable {write : β → List Char} {opens : Char → Bool}

theorem SelfDelimiting.ne_append (delimits : SelfDelimiting write opens) {text : List Char}
    (stops : text.head?.any opens = false) (x : β) (more : List Char) : text ≠ write x ++ more := by
  rintro rfl
  have first := delimits.starts x
  cases shape : write x with
  | nil => simp [shape] at first
  | cons c tail => simp_all

/-- Values written one after the other are told as long as what follows starts none of them. -/
theorem SelfDelimiting.flatMap_append_iff (delimits : SelfDelimiting write opens) {xs ys : List β}
    {rest others : List Char} (stops : rest.head?.any opens = false)
    (stops' : others.head?.any opens = false) :
    xs.flatMap write ++ rest = ys.flatMap write ++ others ↔ xs = ys ∧ rest = others := by
  induction xs generalizing ys with
  | nil =>
    cases ys with
    | nil => simp
    | cons y ys => simpa using delimits.ne_append stops y _
  | cons x xs ih =>
    cases ys with
    | nil => simpa using (delimits.ne_append stops' x _).symm
    | cons y ys =>
      rw [List.flatMap_cons, List.flatMap_cons, List.append_assoc, List.append_assoc,
        delimits.append_iff, List.cons.injEq, and_assoc]
      exact and_congr_right fun _ => ih

end

/-- A character of a quoted text. -/
def escaped (c : Char) : List Char := if c = '"' ∨ c = '\\' then ['\\', c] else [c]

theorem escape_eq_flatMap (text : List Char) : escape text = text.flatMap escaped := by
  induction text with
  | nil => rfl
  | cons c rest ih =>
    rw [escape, List.flatMap_cons, escaped, ih]
    split <;> rfl

theorem selfDelimiting_escaped : SelfDelimiting escaped (· != '"') where
  starts c := by
    unfold escaped
    split
    · rfl
    · rename_i plain
      simpa using (not_or.mp plain).1
  append_iff c d rest others := by
    unfold escaped
    by_cases special : c = '"' ∨ c = '\\' <;> by_cases special' : d = '"' ∨ d = '\\'
    · rw [if_pos special, if_pos special']
      simp
    · -- the backslash would have to be the other character itself
      have bare : '\\' ≠ d := fun same => special' (.inr same.symm)
      have apart : c ≠ d := fun same => special' (same ▸ special)
      rw [if_pos special, if_neg special']
      simp [bare, apart]
    · have bare : c ≠ '\\' := fun same => special (.inr same)
      have apart : c ≠ d := fun same => special (same ▸ special')
      rw [if_neg special, if_pos special']
      simp [bare, apart]
    · rw [if_neg special, if_neg special']
      simp

theorem toList_quote (text : String) :
    (quote text).toList = '"' :: (text.toList.flatMap escaped ++ ['"']) := by
  simp [quote, escape_eq_flatMap]

/-- Whatever a text holds, its literal ends where the text does. -/
theorem quote_append_iff (s t : String) (rest others : List Char) :
    (quote s).toList ++ rest = (quote t).toList ++ others ↔ s = t ∧ rest = others := by
  rw [toList_quote, toList_quote, List.cons_append, List.cons_append, List.cons_inj_right,
    List.append_assoc, List.append_assoc, selfDelimiting_escaped.flatMap_append_iff rfl rfl,
    String.toList_inj]
  simp

/-- What is written of a node. -/
def caption (n : Node α) : String × String := (n.id, n.label)

/-- What is written of an edge. -/
def wire (e : Edge) : String × String × Bool := (e.source, e.target, e.isOutput)

def captionLine (shape : String) (entry : String × String) : List Char :=
  (quote entry.1).toList ++ (s!" [shape={shape}, label=".toList ++
    ((quote entry.2).toList ++ "];\n".toList))

def wireLine (entry : String × String × Bool) : List Char :=
  (quote entry.1).toList ++ (" -> ".toList ++ ((quote entry.2.1).toList ++ (" [style=".toList ++
    ((if entry.2.2 then "bold" else "solid").toList ++ "];\n".toList))))

theorem toList_nodeLine (shape : String) (n : Node α) :
    (nodeLine shape n).toList = captionLine shape (caption n) := by
  simp [nodeLine, captionLine, caption, toString]

theorem toList_edgeLine (e : Edge) : (edgeLine {} e).toList = wireLine (wire e) := by
  simp only [edgeLine, toString, String.toList_append, List.append_assoc]
  rfl

theorem selfDelimiting_captionLine (shape : String) :
    SelfDelimiting (captionLine shape) (· == '"') where
  starts entry := by
    rw [captionLine, toList_quote]
    rfl
  append_iff a b rest others := by
    simp only [captionLine, List.append_assoc, quote_append_iff, List.append_right_inj, Prod.ext_iff,
      and_assoc]

theorem style_append_iff (a b : Bool) (rest others : List Char) :
    (if a then "bold" else "solid").toList ++ rest = (if b then "bold" else "solid").toList ++ others ↔
      a = b ∧ rest = others := by
  cases a <;> cases b <;> simp

theorem selfDelimiting_wireLine : SelfDelimiting wireLine (· == '"') where
  starts entry := by
    rw [wireLine, toList_quote]
    rfl
  append_iff a b rest others := by
    simp only [wireLine, List.append_assoc, quote_append_iff, List.append_right_inj, style_append_iff,
      Prod.ext_iff, and_assoc]

theorem toList_nodeLines (shape : String) (nodes : List (Node α)) :
    (String.join (nodes.map (nodeLine shape))).toList =
      (nodes.map caption).flatMap (captionLine shape) := by
  simp only [String.toList_join, List.flatMap_map, toList_nodeLine]

theorem toList_edgeLines (edges : List Edge) :
    (String.join (edges.map (edgeLine {}))).toList = (edges.map wire).flatMap wireLine := by
  simp only [String.toList_join, List.flatMap_map, toList_edgeLine]

theorem toList_toDot (c : Circuit α) :
    (c.toDot {}).toList = "digraph \x7b\nrankdir=LR;\n".toList ++ ("\x7b rank=source\n".toList ++
      ((c.inputs.map caption).flatMap (captionLine "circle") ++ ("\x7d\n".toList ++
      ((c.gates.map caption).flatMap (captionLine "box") ++ ("\x7b rank=sink\n".toList ++
      ((c.outputs.map caption).flatMap (captionLine "doublecircle") ++ ("\x7d\n".toList ++
      ((c.edges.map wire).flatMap wireLine ++ "\x7d\n".toList)))))))) := by
  unfold Circuit.toDot
  dsimp only
  rw [if_pos rfl]
  simp only [String.toList_append, toList_nodeLines, toList_edgeLines, List.append_assoc]

end Dot

open Dot in
/-- Two circuits have one text exactly if their inputs, their gates and their outputs have the same
ids and labels and their edges the same ends and marks, all in the same order. -/
theorem Circuit.toDot_eq_iff {α β : Type} (c : Circuit α) (d : Circuit β) :
    c.toDot {} = d.toDot {} ↔ c.inputs.map caption = d.inputs.map caption ∧
      c.gates.map caption = d.gates.map caption ∧ c.outputs.map caption = d.outputs.map caption ∧
      c.edges.map wire = d.edges.map wire := by
  have node := selfDelimiting_captionLine
  rw [← String.toList_inj, toList_toDot, toList_toDot, List.append_right_inj, List.append_right_inj,
    (node "circle").flatMap_append_iff (by simp) (by simp), List.append_right_inj,
    (node "box").flatMap_append_iff (by simp) (by simp), List.append_right_inj,
    (node "doublecircle").flatMap_append_iff (by simp) (by simp), List.append_right_inj,
    selfDelimiting_wireLine.flatMap_append_iff (by simp) (by simp), and_iff_left rfl]

end Switching
