import Folio.Statement.Words

/-!
# Statements in a text

A statement opens with `$<` and closes with the nearest `>$` on the same line.
`items` cuts a text into loose characters and statements, from left to right and
without overlap; an opening that has no close on its line is two loose
characters. `scan` lists the statements with their byte offsets.
`render_items` says that nothing is lost.
-/

namespace Folio

/-- A loose character, or the text between the delimiters of a statement. -/
inductive Item where
  | char (c : Char)
  | statement (body : Text)
deriving DecidableEq

/-- The text up to the nearest close of the same line, and what follows it. -/
def close? : Text → Option (Text × Text)
  | [] => none
  | '\n' :: _ => none
  | '>' :: '$' :: rest => some ([], rest)
  | c :: rest => (close? rest).map fun (body, after) => (c :: body, after)

theorem close?_newline (t : Text) : close? ('\n' :: t) = none := by
  rw [close?]

/-- A statement as it is written. -/
def delimited (body : Text) : Text :=
  '$' :: '<' :: body ++ ['>', '$']

theorem close?_eq_append {t body after : Text} (h : close? t = some (body, after)) :
    t = body ++ '>' :: '$' :: after := by
  fun_induction close? t generalizing body after with
  | case1 => simp at h
  | case2 => simp at h
  | case3 rest => simp at h; simp [h.1.symm, h.2]
  | case4 c rest _ _ ih =>
    obtain ⟨⟨b, a⟩, hb, he⟩ := Option.map_eq_some_iff.1 h
    cases he
    simp [ih hb]

/-- Cuts a text into loose characters and statements. -/
def items : Text → List Item
  | [] => []
  | '$' :: '<' :: rest =>
    match _h : close? rest with
    | some (body, after) => .statement body :: items after
    | none => .char '$' :: .char '<' :: items rest
  | c :: rest => .char c :: items rest
termination_by t => t.length
decreasing_by
  all_goals simp only [List.length_cons]
  · have := congrArg List.length (close?_eq_append _h)
    simp only [List.length_append, List.length_cons] at this
    omega
  · omega
  · exact Nat.lt_succ_self _

theorem items_char {c : Char} {t : Text} (h : ∀ u, c = '$' → t ≠ '<' :: u) :
    items (c :: t) = .char c :: items t := by
  rw [items]
  exact h

/-- An item as it is written. -/
def Item.text : Item → Text
  | .char c => [c]
  | .statement body => delimited body

/-- The items of a text, written one after the other, are the text. -/
theorem render_items (t : Text) : (items t).flatMap Item.text = t := by
  fun_induction items t with
  | case1 => rfl
  | case2 rest body after h ih =>
    simp [Item.text, delimited, ih, close?_eq_append h]
  | case3 rest h ih => simp [Item.text, ih]
  | case4 c rest _ ih => simp [Item.text, ih]

/-- A statement and the byte offset of its first character. -/
structure Statement where
  body : Text
  start : Nat
deriving DecidableEq

namespace Statement

/-- The statement as it is written. -/
def text (s : Statement) : Text :=
  delimited s.body

/-- The byte offset just after the statement. -/
def stop (s : Statement) : Nat :=
  s.start + Text.size s.text

/-- The first word of the body; empty for a blank statement. -/
def command (s : Statement) : Text :=
  (splitWords s.body).headD []

/-- The words after the command. -/
def args (s : Statement) : List Text :=
  (splitWords s.body).tail

end Statement

/-- The statements among some items, the first of which stands at byte `start`. -/
def locate (start : Nat) : List Item → List Statement
  | [] => []
  | .char c :: rest => locate (start + c.utf8Size) rest
  | .statement body :: rest => ⟨body, start⟩ :: locate (start + Text.size (delimited body)) rest

/-- All statements of a text, in order. -/
def scan (t : Text) : List Statement :=
  locate 0 (items t)

end Folio
